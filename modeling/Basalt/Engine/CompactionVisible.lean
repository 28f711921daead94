import Mathlib.Data.List.MinMax
import Basalt.Engine.CompactionEdit

/-!
# What a compaction preserves

After the edit the levels are in order again, and every user key has the newest
version it had, except that a tombstone may go once nothing is left of its key.
-/

namespace Basalt
namespace Engine

open Lib Base Std Manifest Compaction

def Pair.IsTombstone (p : Pair) : Prop :=
  (decodeInternalKey p.key).toOption.map InternalKey.kind = some .delete

instance (p : Pair) : Decidable p.IsTombstone :=
  inferInstanceAs (Decidable (_ = _))

section

variable {v v₁ v' : Version} {t : Sources} {c : Compaction} {level output : Level}
  {f f' g : FileMeta} {p q : Pair} {merged : List Pair} {outs : List Output} {o o' : Output}
  {alloc : Nat -> Nat} {fileSize : List Pair -> Nat} {l : Level}

section Recency

variable (hv : Layered v t) (hv₁ : Layered v₁ t) (hflush : Flushed v v₁)
  (hc : Chosen v c level output)

include hflush hc

theorem Chosen.mem_files (hg : g ∈ c.inputs) :
    exists l, g ∈ v₁.files l ∧ l.val ≤ output.val := by
  rcases hc.mem_inputs hg with ⟨_, hg⟩ | ⟨_, hg⟩
  · refine ⟨level, hflush.kept level g hg, ?_⟩
    rw [hc.next]
    exact Nat.le_succ _
  · exact ⟨output, hflush.kept output g hg, Nat.le_refl _⟩

include hv₁

theorem Chosen.newer_of_kept (hf : f ∈ v₁.files l) (hnot : f ∉ c.inputs)
    (hl : l.val < output.val) (hin : g ∈ c.inputs) (hp : p ∈ t f.fileNum) (hq : q ∈ t g.fileNum)
    (huser : p.userKey = q.userKey) : q.seq < p.seq := by
  have hfall : f ∈ v₁.all := Version.mem_all.mpr ⟨l, hf⟩
  have hflevel := hv₁.wellFormed.level l f hf
  have hnewer : forall l', g ∈ v₁.files l' -> l.val < l'.val -> q.seq < p.seq := by
    intro l' hg' hlt
    apply hv₁.recency f g hfall (Version.mem_all.mpr ⟨l', hg'⟩) (Or.inl _) p q hp hq huser
    rw [hflevel, hv₁.wellFormed.level l' g hg']
    exact hlt
  rcases hc.mem_inputs hin with ⟨_, hg⟩ | ⟨_, hg⟩
  · have hg' := hflush.kept level g hg
    rw [hc.next] at hl
    rcases Nat.lt_or_eq_of_le (Nat.le_of_lt_succ hl) with hlt | heq
    · exact hnewer level hg' hlt
    · -- Both tables are of the level that is compacted.
      have hsame : l = level := Fin.ext heq
      subst hsame
      have hglevel := hv₁.wellFormed.level l g hg'
      rcases Nat.eq_zero_or_pos l.val with hzero | hpos
      · have hyoung : g.fileNum < f.fileNum := by
          apply hflush.younger l f g hzero hf _ hg
          intro hold
          rw [← hc.whole hzero] at hold
          exact hnot (List.mem_append_left _ hold)
        exact hv₁.recency f g hfall (Version.mem_all.mpr ⟨l, hg'⟩)
          (Or.inr ⟨hflevel.trans hzero, hglevel.trans hzero, hyoung⟩) p q hp hq huser
      · have hne : f.fileNum ≠ g.fileNum := by
          intro hnum
          have heq := List.inj_on_of_nodup_map (hv₁.wellFormed.nodup l) hf hg' hnum
          exact hnot (heq ▸ hin)
        have hapart := hv₁.apart f g hfall (Version.mem_all.mpr ⟨l, hg'⟩)
          (hflevel.trans hglevel.symm) (hflevel ▸ Nat.ne_of_gt hpos) hne
        exact absurd huser ((hv₁.tables f hfall).userKey_ne
          (hv₁.tables g (Version.mem_all.mpr ⟨l, hg'⟩)) hapart hp hq)
  · exact hnewer output (hflush.kept output g hg) hl

end Recency

section Edited

variable (hv : Layered v t) (hv₁ : Layered v₁ t) (hflush : Flushed v v₁)
  (hc : Chosen v c level output) (halloc : Function.Injective alloc)
  (hnew : forall i, alloc i ∉ v₁.live) (hr : Result c t alloc merged outs)
  (hfiles : forall l f, f ∈ v'.files l <-> Edited v₁ c output outs fileSize l f)

include halloc hnew hr hfiles

theorem mem_entries_edited :
    p ∈ entries v' (written t outs) <->
      (exists l f, f ∈ v₁.files l ∧ f ∉ c.inputs ∧ p ∈ t f.fileNum) ∨
        p ∈ c.survivors none merged := by
  rw [mem_entries, hr.mem_survivors]
  constructor
  · rintro ⟨f, hf, hp⟩
    rcases Version.mem_all.mp hf with ⟨l, hl⟩
    rcases (hfiles l f).mp hl with ⟨hf₁, hnot⟩ | ⟨_, o, ho, rfl⟩
    · rw [written_of_live hnew hr (Version.mem_live.mpr ⟨l, f, hf₁, rfl⟩)] at hp
      exact Or.inl ⟨l, f, hf₁, hnot, hp⟩
    · have hw : written t outs (o.fileMeta c.output fileSize).fileNum = o.pairs :=
        written_of_mem (hr.nodup halloc) ho
      rw [hw] at hp
      exact Or.inr ⟨o, ho, hp⟩
  · rintro (⟨l, f, hf, hnot, hp⟩ | ⟨o, ho, hp⟩)
    · refine ⟨f, Version.mem_all.mpr ⟨l, (hfiles l f).mpr (Or.inl ⟨hf, hnot⟩)⟩, ?_⟩
      rw [written_of_live hnew hr (Version.mem_live.mpr ⟨l, f, hf, rfl⟩)]
      exact hp
    · refine ⟨o.fileMeta c.output fileSize, Version.mem_all.mpr ⟨output,
        (hfiles output _).mpr (Or.inr ⟨rfl, o, ho, rfl⟩)⟩, ?_⟩
      have hw : written t outs (o.fileMeta c.output fileSize).fileNum = o.pairs :=
        written_of_mem (hr.nodup halloc) ho
      rw [hw]
      exact hp

include hflush hc

theorem entries_edited (hp : p ∈ entries v' (written t outs)) : p ∈ entries v₁ t := by
  rw [mem_entries]
  rcases (mem_entries_edited halloc hnew hr hfiles).mp hp with ⟨l, f, hf, _, hp⟩ | hp
  · exact ⟨f, Version.mem_all.mpr ⟨l, hf⟩, hp⟩
  · have hmerged := (survivors_sublist c none merged).subset hp
    rcases hr.mem_merged.mp hmerged with ⟨g, hg, hp⟩
    rcases Chosen.mem_files hflush hc hg with ⟨l, hl, _⟩
    exact ⟨g, Version.mem_all.mpr ⟨l, hl⟩, hp⟩

include hv₁

theorem recency_edited (hf : Edited v₁ c output outs fileSize l f) {l' : Level}
    (hf' : Edited v₁ c output outs fileSize l' f') (hlevel : f.level = l.val)
    (hlevel' : f'.level = l'.val) (hshallow : Shallower f f')
    (hp : p ∈ written t outs f.fileNum) (hq : q ∈ written t outs f'.fileNum)
    (huser : p.userKey = q.userKey) : q.seq < p.seq := by
  have hpos : output.val ≠ 0 := by
    rw [hc.next]
    exact Nat.succ_ne_zero _
  rcases hf with ⟨hf, hnot⟩ | ⟨rfl, o, ho, rfl⟩
  · rw [written_of_live hnew hr (Version.mem_live.mpr ⟨l, f, hf, rfl⟩)] at hp
    rcases hf' with ⟨hf', _⟩ | ⟨rfl, o, ho, rfl⟩
    · rw [written_of_live hnew hr (Version.mem_live.mpr ⟨l', f', hf', rfl⟩)] at hq
      exact hv₁.recency f f' (Version.mem_all.mpr ⟨l, hf⟩) (Version.mem_all.mpr ⟨l', hf'⟩)
        hshallow p q hp hq huser
    · have hw : written t outs (o.fileMeta c.output fileSize).fileNum = o.pairs :=
        written_of_mem (hr.nodup halloc) ho
      rw [hw] at hq
      rcases hr.exists_input ho hq with ⟨g, hg, hq⟩
      have hlt : l.val < l'.val := by
        rcases hshallow with hlt | ⟨_, hzero, _⟩
        · rw [← hlevel, ← hlevel']
          exact hlt
        · exact absurd (hlevel'.symm.trans hzero) hpos
      exact Chosen.newer_of_kept hv₁ hflush hc hf hnot hlt hg hp hq huser
  · have hw : written t outs (o.fileMeta c.output fileSize).fileNum = o.pairs :=
      written_of_mem (hr.nodup halloc) ho
    rw [hw] at hp
    have hlt : l.val < l'.val := by
      rcases hshallow with hlt | ⟨hzero, _, _⟩
      · rw [← hlevel, ← hlevel']
        exact hlt
      · exact absurd (hlevel.symm.trans hzero) hpos
    rcases hf' with ⟨hf', _⟩ | ⟨rfl, _⟩
    · rw [written_of_live hnew hr (Version.mem_live.mpr ⟨l', f', hf', rfl⟩)] at hq
      rcases hr.exists_input ho hp with ⟨g, hg, hp⟩
      rcases Chosen.mem_files hflush hc hg with ⟨l'', hg'', hle⟩
      apply hv₁.recency g f' (Version.mem_all.mpr ⟨l'', hg''⟩) (Version.mem_all.mpr ⟨l', hf'⟩)
        (Or.inl _) p q hp hq huser
      rw [hv₁.wellFormed.level l'' g hg'', hlevel']
      exact Nat.lt_of_le_of_lt hle hlt
    · exact absurd hlt (Nat.lt_irrefl _)

include hv

theorem layered_edited (hwell : v'.WellFormed) : Layered v' (written t outs) where
  wellFormed := hwell
  tables := by
    intro f hf
    rcases Version.mem_all.mp hf with ⟨l, hl⟩
    exact ((hfiles l f).mp hl).holds hv hv₁ hc halloc hnew hr
  apart := by
    intro f f' hf hf' hlevel hpos hne
    rcases Version.mem_all.mp hf with ⟨l, hl⟩
    rcases Version.mem_all.mp hf' with ⟨l', hl'⟩
    have hsame : l = l' := by
      apply Fin.ext
      rw [← hwell.level l f hl, ← hwell.level l' f' hl']
      exact hlevel
    subst hsame
    rw [hwell.level l f hl] at hpos
    exact ((hfiles l f).mp hl).apart hv hv₁ hflush hc hr hpos ((hfiles l f').mp hl') hne
  recency := by
    intro f f' hf hf' hshallow p q hp hq huser
    rcases Version.mem_all.mp hf with ⟨l, hl⟩
    rcases Version.mem_all.mp hf' with ⟨l', hl'⟩
    exact recency_edited hv₁ hflush hc halloc hnew hr hfiles ((hfiles l f).mp hl)
      ((hfiles l' f').mp hl') (hwell.level l f hl) (hwell.level l' f' hl') hshallow hp hq huser

/-- The newest version of a user key stays, or is a tombstone that leaves nothing
of it behind. -/
theorem newest_edited (h : Newest v₁ t p) :
    Newest v' (written t outs) p ∨
      (p.IsTombstone ∧ forall q, q ∈ entries v' (written t outs) -> q.userKey ≠ p.userKey) := by
  have hmem := fun {q} => mem_entries_edited (p := q) halloc hnew hr hfiles
  have hstays : p ∈ entries v' (written t outs) -> Newest v' (written t outs) p :=
    fun hp => ⟨hp, fun q hq => h.right q (entries_edited hflush hc halloc hnew hr hfiles hq)⟩
  rcases mem_entries.mp h.left with ⟨f, hf, hp⟩
  rcases Version.mem_all.mp hf with ⟨l, hl⟩
  by_cases hin : f ∈ c.inputs
  · have hmerged : p ∈ merged := hr.mem_merged.mpr ⟨f, hin, hp⟩
    have hnewest : NewestIn merged p := by
      intro q hq huser
      rcases hr.mem_merged.mp hq with ⟨g, hg, hq⟩
      rcases Chosen.mem_files hflush hc hg with ⟨l', hl', _⟩
      have hentry : q ∈ entries v₁ t := mem_entries.mpr ⟨g, Version.mem_all.mpr ⟨l', hl'⟩, hq⟩
      exact isLE_of_trailer_le huser.symm (h.right q hentry huser)
    by_cases hkeeps : c.Keeps p
    · exact Or.inl (hstays (hmem.mpr (Or.inr
        (Compaction.mem_survivors hr.ascending hmerged (by simp) hkeeps hnewest))))
    · rcases not_not.mp hkeeps with ⟨htomb, hbelow⟩
      refine Or.inr ⟨htomb, fun q hq huser => ?_⟩
      rcases hmem.mp hq with ⟨l', g, hg, hnot, hq⟩ | hq
      · rcases Nat.lt_trichotomy l'.val output.val with hlt | heq | hlt
        · -- A version above the inputs would be newer.
          have hseq := Chosen.newer_of_kept hv₁ hflush hc hg hnot hlt hin hq hp huser
          have hentry : q ∈ entries v₁ t := mem_entries.mpr ⟨g, Version.mem_all.mpr ⟨l', hg⟩, hq⟩
          exact Nat.not_lt_of_le (h.right q hentry huser) (trailer_lt_of_keySeq_lt hseq)
        · have hsame : l' = output := Fin.ext heq
          subst hsame
          have hpos : l'.val ≠ 0 := by
            rw [hc.next]
            exact Nat.succ_ne_zero _
          have hg' := hg
          rw [hflush.deeper l' hpos] at hg'
          have hholds := hv₁.tables g (Version.mem_all.mpr ⟨l', hg⟩)
          have hself : compare p.userKey p.userKey = .eq := cmp_self _
          rcases hc.one_side hv hg' (fun hin' => hnot (List.mem_append_right _ hin')) with
            hside | hside
          · have hbad := TransCmp.lt_of_isLE_of_lt (hholds.isLE_largest hq) (hside f p hin hp)
            rw [huser, hself] at hbad
            cases hbad
          · have hbad := TransCmp.lt_of_lt_of_isLE (hside f p hin hp) (hholds.smallest_isLE hq)
            rw [huser, hself] at hbad
            cases hbad
        · have hpos : l'.val ≠ 0 := Nat.ne_of_gt (Nat.zero_lt_of_lt hlt)
          rw [hflush.deeper l' hpos] at hg
          have hmay := hc.keyMayExistBelow hv hlt hg hq
          rw [huser, hbelow] at hmay
          cases hmay
      · -- Of the inputs, only the pair itself could survive.
        rcases survivors_newest hr.ascending (follows_none merged) hq with ⟨hkeeps', hnewest'⟩
        have hq' := (survivors_sublist c none merged).subset hq
        have hle := hnewest q hq' huser
        have hge := hnewest' p hmerged huser.symm
        have heq : p.compare q = .eq := by
          cases hcmp : p.compare q with
          | eq => rfl
          | lt =>
              rw [cmp_eq_gt hcmp] at hge
              cases hge
          | gt =>
              rw [hcmp] at hle
              cases hle
        rw [← hr.ascending.eq_of_cmp hmerged hq' heq] at hkeeps'
        exact hkeeps hkeeps'
  · exact Or.inl (hstays (hmem.mpr (Or.inl ⟨l, f, hl, hin, hp⟩)))

end Edited

theorem exists_newest (hp : p ∈ entries v t) :
    exists m, Newest v t m ∧ m.userKey = p.userKey := by
  cases hmax : ((entries v t).filter fun q => q.userKey = p.userKey).argmax
      fun q => trailer q.key with
  | none =>
      have hnil := List.argmax_eq_none.mp hmax
      have hmem : p ∈ (entries v t).filter fun q => q.userKey = p.userKey :=
        List.mem_filter.mpr ⟨hp, decide_eq_true rfl⟩
      rw [hnil] at hmem
      cases hmem
  | some m =>
      rcases List.mem_filter.mp (List.argmax_mem hmax) with ⟨hm, huser⟩
      have huser := of_decide_eq_true huser
      refine ⟨m, ⟨hm, fun q hq hquser => ?_⟩, huser⟩
      apply List.le_of_mem_argmax (l := (entries v t).filter fun q => q.userKey = p.userKey) _ hmax
      exact List.mem_filter.mpr ⟨hq, decide_eq_true (hquser.trans huser)⟩

theorem Newest.unique (hv : Layered v t) (h : Newest v t p) (h' : Newest v t q)
    (huser : p.userKey = q.userKey) : p = q := by
  have hle : trailer q.key ≤ trailer p.key := h.right q h'.left huser.symm
  have hge : trailer p.key ≤ trailer q.key := h'.right p h.left huser
  have heq : p.compare q = .eq := by
    have hpq : (p.compare q).isLE = true := isLE_of_trailer_le huser hle
    have hqp : (q.compare p).isLE = true := isLE_of_trailer_le huser.symm hge
    cases hcmp : p.compare q with
    | eq => rfl
    | lt =>
        rw [cmp_eq_gt hcmp] at hqp
        cases hqp
    | gt =>
        rw [hcmp] at hpq
        cases hpq
  rcases mem_entries.mp h.left with ⟨f, hf, hp⟩
  rcases mem_entries.mp h'.left with ⟨f', hf', hq⟩
  by_cases hnum : f.fileNum = f'.fileNum
  · rw [hnum] at hp
    exact (hv.tables f' hf').ascending.eq_of_cmp hp hq heq
  · exact absurd heq (hv.compare_ne_eq hf hf' hnum hp hq)

end

/-- What holds of the version `v'` and the tables `t'` that a compaction leaves of
`v₁` and `t`. -/
structure Preserves (v₁ : Version) (t : Sources) (v' : Version) (t' : Sources) : Prop where
  layered : Layered v' t'
  newest : forall p, Newest v₁ t p -> Newest v' t' p ∨
    (p.IsTombstone ∧ forall q, q ∈ entries v' t' -> q.userKey ≠ p.userKey)
  older : forall p, Newest v' t' p -> Newest v₁ t p

theorem preserves_edited {v v₁ v' : Version} {t : Sources} {c : Compaction}
    {level output : Level} {merged : List Pair} {outs : List Output} {alloc : Nat -> Nat}
    {fileSize : List Pair -> Nat} (hv : Layered v t) (hv₁ : Layered v₁ t)
    (hflush : Flushed v v₁) (hc : Chosen v c level output) (halloc : Function.Injective alloc)
    (hnew : forall i, alloc i ∉ v₁.live) (hr : Result c t alloc merged outs)
    (hok : applyEdit v₁ (c.edit fileSize outs) = .ok v')
    (hfiles : forall l f, f ∈ v'.files l <-> Edited v₁ c output outs fileSize l f) :
    Preserves v₁ t v' (written t outs) := by
  have hlayered := layered_edited hv hv₁ hflush hc halloc hnew hr hfiles
    (hv₁.wellFormed.applyEdit hok)
  have hnewest := fun {p} => newest_edited (p := p) hv hv₁ hflush hc halloc hnew hr hfiles
  refine ⟨hlayered, fun p => hnewest, ?_⟩
  intro p hp
  rcases exists_newest (entries_edited hflush hc halloc hnew hr hfiles hp.left) with
    ⟨m, hm, huser⟩
  rcases hnewest hm with hm' | ⟨_, hgone⟩
  · rw [← Newest.unique hlayered hm' hp huser]
    exact hm
  · exact absurd huser.symm (hgone p hp.left)

/-- What is picked is a compaction of a level that has tables, and any such compaction
whose reads succeed keeps the visible contents and the order of the levels, also when
tables were flushed while it ran. -/
theorem compaction_preserves {ε : Type} {v v₁ : Version} {t : Sources} (hv : Layered v t)
    (hv₁ : Layered v₁ t) (hflush : Flushed v v₁) {alloc : Nat -> Nat}
    (halloc : Function.Injective alloc) (hnew : forall i, alloc i ∉ v₁.live) (opts : Options)
    (estimatedSize fileSize : List Pair -> Nat) (faults : Nat -> Faults ε) :
    (forall compactPtr c compactPtr',
      pickCompaction opts v compactPtr = some (c, compactPtr') -> Pickable v c) ∧
    forall c, Pickable v c ->
      (exists outs v', c.outputs opts estimatedSize alloc t faults = .ok outs ∧
        applyEdit v₁ (c.edit fileSize outs) = .ok v' ∧ Preserves v₁ t v' (written t outs)) ∨
      exists e i s e', c.outputs opts estimatedSize alloc t faults = .error e ∧
        faults i s = some e' := by
  refine ⟨fun compactPtr c compactPtr' => pickable_of_pickCompaction, ?_⟩
  intro c hpick
  rcases hpick.chosen with ⟨level, output, hc⟩
  rcases outputs_spec hc hv opts estimatedSize alloc faults with ⟨merged, outs, hout, hr⟩ | hfail
  · rcases applyEdit_compaction hv hv₁ hflush hc halloc hnew hr fileSize with
      ⟨v', hok, hfiles, _⟩
    exact Or.inl ⟨outs, v', hout, hok,
      preserves_edited hv hv₁ hflush hc halloc hnew hr hok hfiles⟩
  · exact Or.inr hfail

/-!
Two tables of level 0: a value of the key `a` and, in the younger one, its
tombstone.
-/

def putA : Pair := { key := appendInternalKey [97] 1 .put, value := [7] }

def deleteA : Pair := { key := appendInternalKey [97] 2 .delete, value := [] }

def tableOf (p : Pair) (num : Nat) : FileMeta :=
  { level := 0, fileNum := num, size := 1, smallest := p.key, largest := p.key }

def pairTables : Sources := fun n => if n = 1 then [putA] else if n = 2 then [deleteA] else []

def pairVersion : Version where
  files := fun l => if l.val = 0 then [tableOf deleteA 2, tableOf putA 1] else []

theorem wellFormed_pairVersion : pairVersion.WellFormed where
  level := by decide +kernel
  nodup := by decide +kernel
  apart := by
    have h : forall l l' : Level, forall f, f ∈ pairVersion.files l ->
        forall f', f' ∈ pairVersion.files l' -> f.fileNum = f'.fileNum -> l = l' := by
      decide +kernel
    exact fun l l' f f' hf hf' => h l l' f hf f' hf'
  bounds := by decide +kernel
  sorted := by decide +kernel
  disjoint := by decide +kernel

theorem holds_tableOf {t : Sources} {p : Pair} {num : Nat} {ik : InternalKey} (h : t num = [p])
    (hik : decodeInternalKey p.key = .ok ik) : Holds t (tableOf p num) where
  ascending := by
    show Ascending Pair.compare (t num)
    rw [h]
    exact List.pairwise_singleton _ _
  valid := by
    intro q hq
    have hq : q ∈ t num := hq
    rw [h] at hq
    rw [List.mem_singleton.mp hq]
    exact ⟨ik, hik⟩
  smallest := by
    show (t num).head?.map Pair.key = some p.key
    rw [h]
    rfl
  largest := by
    show (t num).getLast?.map Pair.key = some p.key
    rw [h]
    rfl

theorem layered_pairVersion : Layered pairVersion pairTables where
  wellFormed := wellFormed_pairVersion
  tables := by
    intro f hf
    have hall : f ∈ [tableOf deleteA 2, tableOf putA 1] := hf
    rcases List.mem_cons.mp hall with rfl | hall
    · exact holds_tableOf rfl (show decodeInternalKey deleteA.key = .ok ⟨[97], 2, .delete⟩ by
        decide +kernel)
    · rw [List.mem_singleton.mp hall]
      exact holds_tableOf rfl (show decodeInternalKey putA.key = .ok ⟨[97], 1, .put⟩ by
        decide +kernel)
  apart := by
    intro f f' hf _ _ hpos
    have hzero : forall f, f ∈ pairVersion.all -> f.level = 0 := by decide +kernel
    exact absurd (hzero f hf) hpos
  recency := by
    have h : forall f, f ∈ pairVersion.all -> forall f', f' ∈ pairVersion.all ->
        Shallower f f' -> forall p, p ∈ pairTables f.fileNum ->
          forall q, q ∈ pairTables f'.fileNum -> p.userKey = q.userKey -> q.seq < p.seq := by
      decide +kernel
    exact fun f f' hf hf' hshallow p q hp hq => h f hf f' hf' hshallow p hp q hq

def pairOptions : Options :=
  Options.defaults { l0CompactThreshold := 2 }

theorem compaction_preserves_tombstone :
    exists c compactPtr outs v',
      pickCompaction pairOptions pairVersion (fun _ => none) = some (c, compactPtr) ∧
      c.outputs pairOptions List.length (fun i => i + 3) pairTables
        (fun _ _ => (none : Option Unit)) = .ok outs ∧
      applyEdit pairVersion (c.edit List.length outs) = .ok v' ∧
      Preserves pairVersion pairTables v' (written pairTables outs) := by
  cases hpick : pickCompaction pairOptions pairVersion (fun _ => none) with
  | none =>
      have hsome : (pickCompaction pairOptions pairVersion fun _ => none).isSome = true := by
        decide +kernel
      rw [hpick] at hsome
      cases hsome
  | some r =>
      have hnew : forall i, i + 3 ∉ pairVersion.live := by
        intro i hi
        have hlive : i + 3 ∈ [2, 1] := hi
        simp at hlive
      have halloc : Function.Injective fun i : Nat => i + 3 := fun i j h => Nat.add_right_cancel h
      rcases compaction_preserves layered_pairVersion layered_pairVersion
        (Flushed.refl pairVersion) halloc hnew pairOptions List.length List.length
        (fun _ _ => (none : Option Unit)) with ⟨hpickable, hpreserves⟩
      rcases hpreserves r.1 (hpickable _ _ _ hpick) with
        ⟨outs, v', hout, hok, hpres⟩ | ⟨_, _, _, _, _, hfault⟩
      · exact ⟨r.1, r.2, outs, v', rfl, hout, hok, hpres⟩
      · cases hfault

end Engine
end Basalt
