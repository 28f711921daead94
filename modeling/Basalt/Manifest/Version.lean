import Mathlib.Data.List.FinRange
import Mathlib.Data.List.Sort
import Basalt.Manifest.Edit

/-!
# Versions

A version is the set of live tables, level by level.  The tables of level 0 may
overlap and are ordered by descending file number; those of a deeper level have
disjoint key ranges and are ordered by their smallest key.
-/

namespace Basalt
namespace Manifest

open Lib Base

abbrev Level := Fin numLevels

structure Version where
  files : Level -> List FileMeta := fun _ => []

namespace Version

def all (v : Version) : List FileMeta :=
  (List.finRange numLevels).flatMap v.files

def live (v : Version) : List Nat :=
  v.all.map FileMeta.fileNum

def setLevel (v : Version) (l : Level) (fs : List FileMeta) : Version where
  files := Function.update v.files l fs

end Version

inductive VersionError where
  | deleteLevel (level : Nat)
  | notLive (fileNum level : Nat)
  | addLevel (level : Nat)
  | alreadyLive (fileNum : Nat)
  | shortBounds
  | bounds (fileNum : Nat)
  | overlap (level fileNum fileNum' : Nat)
deriving DecidableEq, Repr

/-- A file number as it stands in file names, with at least six digits. -/
def fileText (n : Nat) : String :=
  String.ofList (List.replicate (6 - (toString n).length) '0') ++ toString n

/-- The texts of the errors.  Short bounds are not reported: the comparison of
the keys panics. -/
def VersionError.message : VersionError -> String
  | deleteLevel level =>
      "manifest: corrupt: delete-file level " ++ toString level ++ " out of range"
  | notLive fileNum level =>
      "manifest: corrupt: delete of file " ++ fileText fileNum ++ " not live at level " ++
        toString level
  | addLevel level => "manifest: corrupt: add-file level " ++ toString level ++ " out of range"
  | alreadyLive fileNum =>
      "manifest: corrupt: add of file " ++ fileText fileNum ++ " already live"
  | shortBounds => "slice bounds out of range"
  | bounds fileNum =>
      "manifest: corrupt: file " ++ fileText fileNum ++ " has smallest > largest"
  | overlap level fileNum fileNum' =>
      "manifest: corrupt: level " ++ toString level ++ " files " ++ fileText fileNum ++
        " and " ++ fileText fileNum' ++ " overlap"

def deleteFile (v : Version) (d : DeletedFile) : Except VersionError Version :=
  if h : d.level < numLevels then
    let fs := v.files ⟨d.level, h⟩
    if fs.any (fun f => f.fileNum = d.fileNum) then
      .ok (v.setLevel ⟨d.level, h⟩ (fs.eraseP fun f => f.fileNum = d.fileNum))
    else .error (.notLive d.fileNum d.level)
  else .error (.deleteLevel d.level)

def addFile (v : Version) (f : FileMeta) : Except VersionError Version :=
  if h : f.level < numLevels then
    if f.fileNum ∈ v.live then .error (.alreadyLive f.fileNum)
    else .ok (v.setLevel ⟨f.level, h⟩ (v.files ⟨f.level, h⟩ ++ [f]))
  else .error (.addLevel f.level)

def checkBounds (f : FileMeta) : Except VersionError Unit :=
  if f.smallest.length < trailerLen ∨ f.largest.length < trailerLen then
    .error .shortBounds
  else if KeyLE f.smallest f.largest then .ok ()
  else .error (.bounds f.fileNum)

def Before (l : Level) (f f' : FileMeta) : Prop :=
  if l.val = 0 then f'.fileNum ≤ f.fileNum else KeyLE f.smallest f'.smallest

instance (l : Level) : DecidableRel (Before l) := fun f f' =>
  inferInstanceAs (Decidable (if l.val = 0 then f'.fileNum ≤ f.fileNum
    else KeyLE f.smallest f'.smallest))

def sortLevels (v : Version) : Version where
  files := fun l => (v.files l).insertionSort (Before l)

/-- Every table ends before the next one starts. -/
def checkDisjoint (l : Level) : List FileMeta -> Except VersionError Unit
  | [] => .ok ()
  | [_] => .ok ()
  | f :: f' :: fs =>
      if compareKeys f.largest f'.smallest = .lt then checkDisjoint l (f' :: fs)
      else .error (.overlap l f.fileNum f'.fileNum)

def checkLevel (v : Version) (l : Level) : Except VersionError Unit :=
  if l.val = 0 then .ok () else checkDisjoint l (v.files l)

/-- The version with the edit applied; a self-inconsistent edit is an error. -/
def applyEdit (v : Version) (e : VersionEdit) : Except VersionError Version := do
  let deleted <- e.deleteFiles.foldlM deleteFile v
  let added <- e.addFiles.foldlM addFile deleted
  e.addFiles.forM checkBounds
  (List.finRange numLevels).forM (checkLevel (sortLevels added))
  .ok (sortLevels added)

def snapshot (v : Version) : VersionEdit where
  addFiles := v.all

/-!
## Well-formed versions
-/

structure Version.WellFormed (v : Version) : Prop where
  level : forall l f, f ∈ v.files l -> f.level = l
  nodup : forall l, ((v.files l).map FileMeta.fileNum).Nodup
  apart : forall l l' f f', f ∈ v.files l -> f' ∈ v.files l' -> f.fileNum = f'.fileNum ->
    l = l'
  bounds : forall l f, f ∈ v.files l -> checkBounds f = .ok ()
  sorted : forall l, (v.files l).Pairwise (Before l)
  disjoint : forall l, checkLevel v l = .ok ()

theorem Version.wellFormed_empty : ({} : Version).WellFormed where
  level := fun _ _ h => by cases h
  nodup := fun _ => List.nodup_nil
  apart := fun _ _ _ _ h => by cases h
  bounds := fun _ _ h => by cases h
  sorted := fun _ => List.Pairwise.nil
  disjoint := fun l => by
    rw [checkLevel]
    split <;> rfl

namespace Version

variable {v v' : Version} {l l' : Level} {f f' : FileMeta} {fs : List FileMeta}

theorem mem_all : f ∈ v.all <-> exists l, f ∈ v.files l := by
  rw [all, List.mem_flatMap]
  constructor
  · rintro ⟨l, _, h⟩
    exact ⟨l, h⟩
  · rintro ⟨l, h⟩
    exact ⟨l, List.mem_finRange l, h⟩

theorem mem_live {n : Nat} : n ∈ v.live <-> exists l f, f ∈ v.files l ∧ f.fileNum = n := by
  rw [live, List.mem_map]
  constructor
  · rintro ⟨f, hf, hn⟩
    rcases mem_all.mp hf with ⟨l, hl⟩
    exact ⟨l, f, hl, hn⟩
  · rintro ⟨l, f, hf, hn⟩
    exact ⟨f, mem_all.mpr ⟨l, hf⟩, hn⟩

@[simp]
theorem files_setLevel_same : (v.setLevel l fs).files l = fs := by
  simp [setLevel]

theorem files_setLevel_of_ne (h : l' ≠ l) : (v.setLevel l fs).files l' = v.files l' := by
  simp [setLevel, h]

/-- What the edits keep before the levels are sorted and compared. -/
structure Loose (v : Version) : Prop where
  level : forall l f, f ∈ v.files l -> f.level = l
  nodup : forall l, ((v.files l).map FileMeta.fileNum).Nodup
  apart : forall l l' f f', f ∈ v.files l -> f' ∈ v.files l' -> f.fileNum = f'.fileNum ->
    l = l'

theorem WellFormed.loose (h : v.WellFormed) : v.Loose :=
  ⟨h.level, h.nodup, h.apart⟩

theorem Loose.of_sublist (h : v.Loose) (hsub : forall l, (v'.files l).Sublist (v.files l)) :
    v'.Loose := by
  constructor
  · intro l f hf
    exact h.level l f ((hsub l).subset hf)
  · intro l
    exact (h.nodup l).sublist ((hsub l).map FileMeta.fileNum)
  · intro l l' f f' hf hf' heq
    exact h.apart l l' f f' ((hsub l).subset hf) ((hsub l').subset hf') heq

theorem Loose.of_perm (h : v.Loose) (hperm : forall l, (v'.files l).Perm (v.files l)) :
    v'.Loose := by
  constructor
  · intro l f hf
    exact h.level l f ((hperm l).subset hf)
  · intro l
    exact ((hperm l).map FileMeta.fileNum).nodup_iff.mpr (h.nodup l)
  · intro l l' f f' hf hf' heq
    exact h.apart l l' f f' ((hperm l).subset hf) ((hperm l').subset hf') heq

theorem sublist_deleteFile {d : DeletedFile} (hok : deleteFile v d = .ok v') (l : Level) :
    (v'.files l).Sublist (v.files l) := by
  rw [deleteFile] at hok
  split at hok
  · next hlevel =>
      dsimp only at hok
      split at hok
      · cases hok
        by_cases hl : l = ⟨d.level, hlevel⟩
        · subst hl
          rw [files_setLevel_same]
          exact List.eraseP_sublist
        · rw [files_setLevel_of_ne hl]
      · cases hok
  · cases hok

theorem addFile_ok (hok : addFile v f = .ok v') :
    f.fileNum ∉ v.live ∧ exists h : f.level < numLevels,
      v' = v.setLevel ⟨f.level, h⟩ (v.files ⟨f.level, h⟩ ++ [f]) := by
  rw [addFile] at hok
  split at hok
  · next hlevel =>
      split at hok
      · cases hok
      · next hlive =>
          cases hok
          exact ⟨hlive, hlevel, rfl⟩
  · cases hok

theorem mem_addFile (hok : addFile v f = .ok v') (h : f' ∈ v'.files l) :
    f' ∈ v.files l ∨ (f' = f ∧ f.level = l) := by
  rcases addFile_ok hok with ⟨_, hlevel, rfl⟩
  by_cases hl : l = ⟨f.level, hlevel⟩
  · subst hl
    rw [files_setLevel_same] at h
    rcases List.mem_append.mp h with h | h
    · exact Or.inl h
    · exact Or.inr ⟨List.mem_singleton.mp h, rfl⟩
  · rw [files_setLevel_of_ne hl] at h
    exact Or.inl h

theorem Loose.addFile (h : v.Loose) (hok : addFile v f = .ok v') : v'.Loose := by
  rcases addFile_ok hok with ⟨hlive, hlevel, hv'⟩
  have hnew : forall l f', f' ∈ v.files l -> f'.fileNum ≠ f.fileNum :=
    fun l f' hf' heq => hlive (mem_live.mpr ⟨l, f', hf', heq⟩)
  constructor
  · intro l f' hf'
    rcases mem_addFile hok hf' with hf' | ⟨rfl, hl⟩
    · exact h.level l f' hf'
    · exact hl
  · intro l
    by_cases hl : l = ⟨f.level, hlevel⟩
    · subst hl
      rw [hv', files_setLevel_same, List.map_append]
      apply (h.nodup _).append (List.nodup_singleton _)
      intro n hn hn'
      rcases List.mem_map.mp hn with ⟨f', hf', rfl⟩
      exact hnew _ f' hf' (List.mem_singleton.mp hn')
    · rw [hv', files_setLevel_of_ne hl]
      exact h.nodup l
  · intro l l' f₁ f₂ h₁ h₂ heq
    rcases mem_addFile hok h₁ with h₁ | ⟨rfl, hl⟩
    · rcases mem_addFile hok h₂ with h₂ | ⟨rfl, _⟩
      · exact h.apart l l' f₁ f₂ h₁ h₂ heq
      · exact absurd heq (hnew l f₁ h₁)
    · rcases mem_addFile hok h₂ with h₂ | ⟨rfl, hl'⟩
      · exact absurd heq.symm (hnew l' f₂ h₂)
      · exact Fin.ext (hl.symm.trans hl')

theorem Loose.addFiles (h : v.Loose) (hok : fs.foldlM Manifest.addFile v = .ok v') :
    v'.Loose := by
  have hstep : forall (b : Version) (f : FileMeta) (b' : Version), f ∈ fs -> b.Loose ->
      Manifest.addFile b f = .ok b' -> b'.Loose := fun b f b' _ hb hf => hb.addFile hf
  exact foldlM_invariant hstep h hok

end Version

instance (l : Level) : IsTrans FileMeta (Before l) where
  trans a b c hab hbc := by
    rw [Before] at hab hbc ⊢
    split at hab
    · next hl =>
        rw [if_pos hl] at hbc ⊢
        exact Nat.le_trans hbc hab
    · next hl =>
        rw [if_neg hl] at hbc ⊢
        exact IsTrans.trans _ _ _ hab hbc

instance (l : Level) : Std.Total (Before l) where
  total a b := by
    rw [Before, Before]
    split
    · exact Nat.le_total _ _
    · exact Std.Total.total _ _

theorem applyEdit_eq_ok {v v' : Version} {e : VersionEdit} :
    applyEdit v e = .ok v' <-> exists deleted added,
      e.deleteFiles.foldlM deleteFile v = .ok deleted ∧
      e.addFiles.foldlM addFile deleted = .ok added ∧
      (forall f, f ∈ e.addFiles -> checkBounds f = .ok ()) ∧
      (forall l, checkLevel (sortLevels added) l = .ok ()) ∧
      v' = sortLevels added := by
  constructor
  · intro h
    rcases bind_eq_ok.mp h with ⟨deleted, hdeleted, h⟩
    rcases bind_eq_ok.mp h with ⟨added, hadded, h⟩
    rcases bind_eq_ok.mp h with ⟨_, hbounds, h⟩
    rcases bind_eq_ok.mp h with ⟨_, hlevels, h⟩
    cases h
    exact ⟨deleted, added, hdeleted, hadded, forM_eq_ok.mp hbounds,
      fun l => forM_eq_ok.mp hlevels l (List.mem_finRange l), rfl⟩
  · rintro ⟨deleted, added, hdeleted, hadded, hbounds, hlevels, rfl⟩
    apply bind_eq_ok.mpr ⟨deleted, hdeleted, _⟩
    apply bind_eq_ok.mpr ⟨added, hadded, _⟩
    apply bind_eq_ok.mpr ⟨(), forM_eq_ok.mpr hbounds, _⟩
    exact bind_eq_ok.mpr ⟨(), forM_eq_ok.mpr fun l _ => hlevels l, rfl⟩

theorem sublist_deleteFiles {v deleted : Version} {ds : List DeletedFile}
    (h : ds.foldlM deleteFile v = .ok deleted) (l : Level) :
    (deleted.files l).Sublist (v.files l) := by
  have hstep : forall (b : Version) (d : DeletedFile) (b' : Version), d ∈ ds ->
      (b.files l).Sublist (v.files l) -> deleteFile b d = .ok b' ->
      (b'.files l).Sublist (v.files l) :=
    fun b d b' _ hb hd => (Version.sublist_deleteFile hd l).trans hb
  exact foldlM_invariant hstep (List.Sublist.refl _) h

theorem mem_applyEdit {v v' : Version} {e : VersionEdit} (hok : applyEdit v e = .ok v')
    {l : Level} {f : FileMeta} (hf : f ∈ v'.files l) : f ∈ v.files l ∨ f ∈ e.addFiles := by
  rcases applyEdit_eq_ok.mp hok with ⟨deleted, added, hdeleted, hadded, _, _, rfl⟩
  have hmem : f ∈ added.files l :=
    (List.perm_insertionSort (Before l) (added.files l)).subset hf
  have hstep : forall (b : Version) (g : FileMeta) (b' : Version), g ∈ e.addFiles ->
      (f ∈ b.files l -> f ∈ v.files l ∨ f ∈ e.addFiles) -> addFile b g = .ok b' ->
      f ∈ b'.files l -> f ∈ v.files l ∨ f ∈ e.addFiles := by
    intro b g b' hg hb hadd hf'
    rcases Version.mem_addFile hadd hf' with hf' | ⟨rfl, _⟩
    · exact hb hf'
    · exact Or.inr hg
  have hstart : f ∈ deleted.files l -> f ∈ v.files l ∨ f ∈ e.addFiles :=
    fun hf' => Or.inl ((sublist_deleteFiles hdeleted l).subset hf')
  exact foldlM_invariant hstep hstart hadded hmem

theorem live_of_applyEdit {v v' : Version} {e : VersionEdit} (h : applyEdit v e = .ok v')
    {n : Nat} (hn : n ∈ v'.live) : n ∈ v.live ∨ n ∈ e.addFiles.map FileMeta.fileNum := by
  rcases Version.mem_live.mp hn with ⟨l, f, hf, rfl⟩
  rcases mem_applyEdit h hf with hf | hf
  · exact Or.inl (Version.mem_live.mpr ⟨l, f, hf, rfl⟩)
  · exact Or.inr (List.mem_map_of_mem hf)

theorem Version.WellFormed.applyEdit {v v' : Version} {e : VersionEdit} (h : v.WellFormed)
    (hok : applyEdit v e = .ok v') : v'.WellFormed := by
  have hmem := @mem_applyEdit v v' e hok
  rcases applyEdit_eq_ok.mp hok with ⟨deleted, added, hdeleted, hadded, hbounds, hlevels, rfl⟩
  have hloose : added.Loose :=
    (h.loose.of_sublist (sublist_deleteFiles hdeleted)).addFiles hadded
  have hsorted : (sortLevels added).Loose := hloose.of_perm fun l =>
    List.perm_insertionSort (Before l) (added.files l)
  exact {
    level := hsorted.level
    nodup := hsorted.nodup
    apart := hsorted.apart
    bounds := fun l f hf => (hmem hf).elim (h.bounds l f) (hbounds f)
    sorted := fun l => List.pairwise_insertionSort (Before l) (added.files l)
    disjoint := hlevels }

/-!
## The snapshot
-/

theorem foldlM_addFile {fs : List FileMeta} {v : Version}
    (hlevel : forall f, f ∈ fs -> f.level < numLevels)
    (hnodup : (fs.map FileMeta.fileNum).Nodup)
    (hnew : forall f, f ∈ fs -> f.fileNum ∉ v.live) :
    exists v', fs.foldlM addFile v = .ok v' ∧
      forall l, v'.files l = v.files l ++ fs.filter fun f => f.level = l.val := by
  induction fs generalizing v with
  | nil => exact ⟨v, rfl, fun l => (List.append_nil _).symm⟩
  | cons f fs ih =>
      have hf : f.level < numLevels := hlevel f List.mem_cons_self
      let next := v.setLevel ⟨f.level, hf⟩ (v.files ⟨f.level, hf⟩ ++ [f])
      have hadd : addFile v f = .ok next := by
        rw [addFile, dif_pos hf, if_neg (hnew f List.mem_cons_self)]
      have hrest : f.fileNum ∉ fs.map FileMeta.fileNum ∧
          (fs.map FileMeta.fileNum).Nodup := List.nodup_cons.mp hnodup
      have hnext : forall f', f' ∈ fs -> f'.fileNum ∉ next.live := by
        intro f' hf' hlive
        rcases Version.mem_live.mp hlive with ⟨l, g, hg, hnum⟩
        rcases Version.mem_addFile hadd hg with hg | ⟨rfl, _⟩
        · exact hnew f' (List.mem_cons_of_mem f hf') (Version.mem_live.mpr ⟨l, g, hg, hnum⟩)
        · apply hrest.left
          rw [hnum]
          exact List.mem_map_of_mem hf'
      rcases ih (fun g hg => hlevel g (List.mem_cons_of_mem f hg)) hrest.right hnext with
        ⟨v', hv', hfiles⟩
      refine ⟨v', bind_eq_ok.mpr ⟨next, hadd, hv'⟩, ?_⟩
      intro l
      rw [hfiles]
      by_cases hl : f.level = l.val
      · have heq : l = ⟨f.level, hf⟩ := Fin.ext hl.symm
        have hfilter : (f :: fs).filter (fun f => f.level = l.val) =
            f :: fs.filter fun f => f.level = l.val := by
          rw [List.filter_cons, decide_eq_true hl, if_pos rfl]
        rw [hfilter, heq, Version.files_setLevel_same, List.append_assoc]
        rfl
      · have hne : l ≠ ⟨f.level, hf⟩ := fun heq => hl (congrArg Fin.val heq).symm
        have hfilter : (f :: fs).filter (fun f => f.level = l.val) =
            fs.filter fun f => f.level = l.val := by
          rw [List.filter_cons, decide_eq_false hl, if_neg Bool.false_ne_true]
        rw [hfilter, Version.files_setLevel_of_ne hne]

theorem eraseP_fileNum {fs : List FileMeta} (h : (fs.map FileMeta.fileNum).Nodup) (n : Nat) :
    (fs.eraseP fun f => f.fileNum = n) = fs.filter fun f => f.fileNum ≠ n := by
  induction fs with
  | nil => rfl
  | cons f fs ih =>
      rcases List.nodup_cons.mp h with ⟨hf, hrest⟩
      by_cases hn : f.fileNum = n
      · rw [List.eraseP_cons_of_pos (by simpa using hn), List.filter_cons_of_neg (by simpa using hn)]
        symm
        apply List.filter_eq_self.mpr
        intro g hg
        simp only [ne_eq, decide_not, Bool.not_eq_true', decide_eq_false_iff_not]
        intro heq
        apply hf
        rw [hn, ← heq]
        exact List.mem_map_of_mem hg
      · rw [List.eraseP_cons_of_neg (by simpa using hn), List.filter_cons_of_pos (by simpa using hn),
          ih hrest]

theorem deleteFile_of_mem {v : Version} {l : Level} {f : FileMeta} (h : v.Loose)
    (hf : f ∈ v.files l) :
    exists v', deleteFile v { level := f.level, fileNum := f.fileNum } = .ok v' ∧
      forall l', v'.files l' = (v.files l').filter fun g => g.fileNum ≠ f.fileNum := by
  have hl : f.level < numLevels := by
    rw [h.level l f hf]
    exact l.isLt
  have heq : (⟨f.level, hl⟩ : Level) = l := Fin.ext (h.level l f hf)
  have hany : ((v.files l).any fun g => g.fileNum = f.fileNum) = true :=
    List.any_eq_true.mpr ⟨f, hf, by simp⟩
  refine ⟨v.setLevel l ((v.files l).eraseP fun g => g.fileNum = f.fileNum), ?_, ?_⟩
  · unfold deleteFile
    rw [dif_pos hl]
    dsimp only
    rw [heq, if_pos hany]
  · intro l'
    rcases eq_or_ne l' l with rfl | hne
    · rw [Version.files_setLevel_same, eraseP_fileNum (h.nodup l')]
    · rw [Version.files_setLevel_of_ne hne]
      symm
      apply List.filter_eq_self.mpr
      intro g hg
      simp only [ne_eq, decide_not, Bool.not_eq_true', decide_eq_false_iff_not]
      intro hnum
      exact hne (h.apart l' l g f hg hf hnum)

theorem foldlM_deleteFile {fs : List FileMeta} {v : Version} (h : v.Loose)
    (hmem : forall f, f ∈ fs -> exists l, f ∈ v.files l)
    (hnodup : (fs.map FileMeta.fileNum).Nodup) :
    exists v', (fs.map fun f => ({ level := f.level, fileNum := f.fileNum } : DeletedFile)).foldlM
        deleteFile v = .ok v' ∧
      forall l, v'.files l = (v.files l).filter fun g => g.fileNum ∉ fs.map FileMeta.fileNum := by
  induction fs generalizing v with
  | nil =>
      refine ⟨v, rfl, fun l => ?_⟩
      symm
      apply List.filter_eq_self.mpr
      intro g _
      simp
  | cons f fs ih =>
      rcases List.nodup_cons.mp hnodup with ⟨hf, hrest⟩
      rcases hmem f List.mem_cons_self with ⟨l, hl⟩
      rcases deleteFile_of_mem h hl with ⟨next, hnext, hfiles⟩
      have hsub : forall l, (next.files l).Sublist (v.files l) := by
        intro l
        rw [hfiles]
        exact List.filter_sublist
      have hmem' : forall g, g ∈ fs -> exists l, g ∈ next.files l := by
        intro g hg
        rcases hmem g (List.mem_cons_of_mem f hg) with ⟨l', hl'⟩
        refine ⟨l', ?_⟩
        rw [hfiles, List.mem_filter]
        refine ⟨hl', ?_⟩
        simp only [ne_eq, decide_not, Bool.not_eq_true', decide_eq_false_iff_not]
        intro heq
        apply hf
        rw [← heq]
        exact List.mem_map_of_mem hg
      rcases ih (h.of_sublist hsub) hmem' hrest with ⟨v', hv', hfiles'⟩
      refine ⟨v', bind_eq_ok.mpr ⟨next, hnext, hv'⟩, fun l => ?_⟩
      rw [hfiles', hfiles, List.filter_filter]
      apply List.filter_congr
      intro g _
      rw [List.map_cons, ← Bool.decide_and, decide_eq_decide, List.mem_cons, not_or]
      exact and_comm

theorem checkDisjoint_of_pairwise (l : Level) {fs : List FileMeta}
    (h : fs.Pairwise fun f f' => compareKeys f.largest f'.smallest = .lt) :
    checkDisjoint l fs = .ok () := by
  induction fs with
  | nil => rfl
  | cons f fs ih =>
      rcases List.pairwise_cons.mp h with ⟨hall, hrest⟩
      cases fs with
      | nil => rfl
      | cons f' fs =>
          unfold checkDisjoint
          rw [if_pos (hall f' List.mem_cons_self)]
          exact ih hrest

theorem flatMap_only {α β : Type} [DecidableEq α] {xs : List α} {a : α} {g : α -> List β}
    (hnodup : xs.Nodup) (ha : a ∈ xs) (hg : forall b, b ≠ a -> g b = []) :
    xs.flatMap g = g a := by
  induction xs with
  | nil => cases ha
  | cons x xs ih =>
      have hx := List.nodup_cons.mp hnodup
      rw [List.flatMap_cons]
      rcases List.mem_cons.mp ha with rfl | ha
      · have hnone : xs.flatMap g = [] := by
          rw [List.flatMap_eq_nil_iff]
          intro b hb
          exact hg b fun heq => hx.left (heq ▸ hb)
        rw [hnone, List.append_nil]
      · rw [hg x (fun heq => hx.left (heq ▸ ha)), List.nil_append]
        exact ih hx.right ha

namespace Version.WellFormed

variable {v : Version}

theorem filter_all (h : v.WellFormed) (l : Level) :
    v.all.filter (fun f => f.level = l.val) = v.files l := by
  rw [all, List.filter_flatMap,
    flatMap_only (List.nodup_finRange numLevels) (List.mem_finRange l)]
  · apply List.filter_eq_self.mpr
    intro f hf
    exact decide_eq_true (h.level l f hf)
  · intro l' hl'
    apply List.filter_eq_nil_iff.mpr
    intro f hf heq
    apply hl'
    apply Fin.ext
    rw [← h.level l' f hf]
    exact of_decide_eq_true heq

theorem nodup_live (h : v.WellFormed) : v.live.Nodup := by
  rw [live, all, List.map_flatMap, List.nodup_flatMap]
  constructor
  · intro l _
    exact h.nodup l
  · apply (List.nodup_finRange numLevels).imp
    intro l l' hne n hn hn'
    rcases List.mem_map.mp hn with ⟨f, hf, hfn⟩
    rcases List.mem_map.mp hn' with ⟨f', hf', hfn'⟩
    exact hne (h.apart l l' f f' hf hf' (hfn.trans hfn'.symm))

theorem level_lt (h : v.WellFormed) {f : FileMeta} (hf : f ∈ v.all) :
    f.level < numLevels := by
  rcases mem_all.mp hf with ⟨l, hl⟩
  rw [h.level l f hl]
  exact l.isLt

/-- The snapshot of a version rebuilds it, level by level and in order. -/
theorem applyEdit_snapshot (h : v.WellFormed) (e : VersionEdit)
    (hadd : e.addFiles = v.all) (hdelete : e.deleteFiles = []) :
    Manifest.applyEdit {} e = .ok v := by
  have hempty : forall f, f ∈ v.all -> f.fileNum ∉ ({} : Version).live := by
    intro f _ hlive
    rcases mem_live.mp hlive with ⟨l, g, hg, _⟩
    cases hg
  rcases foldlM_addFile (fun f hf => h.level_lt hf) h.nodup_live hempty with
    ⟨added, hadded, hfiles⟩
  have hsame : added = v := by
    have hfun : added.files = v.files := by
      funext l
      rw [hfiles, h.filter_all]
      rfl
    cases added
    cases v
    cases hfun
    rfl
  have hsorted : sortLevels v = v := by
    have hfun : (sortLevels v).files = v.files := by
      funext l
      exact List.Pairwise.insertionSort_eq (h.sorted l)
    cases v
    exact congrArg Version.mk hfun
  rw [hsame] at hadded
  apply applyEdit_eq_ok.mpr
  rw [hadd, hdelete]
  refine ⟨{}, v, rfl, hadded, ?_, ?_, hsorted.symm⟩
  · intro f hf
    rcases mem_all.mp hf with ⟨l, hl⟩
    exact h.bounds l f hl
  · rw [hsorted]
    exact h.disjoint

end Version.WellFormed

end Manifest
end Basalt
