import Basalt.Engine.CompactionVisible

/-!
# The edit of a flush

A flush adds one table to level 0, with versions that are newer than those of all
other tables.
-/

namespace Basalt
namespace Engine

open Lib Base Std Manifest Compaction

variable {v v₁ v' : Version} {t t' : Sources} {f g : FileMeta} {p q : Pair} {e : VersionEdit}

theorem Holds.congr (h : Holds t f) (hsame : t' f.fileNum = t f.fileNum) : Holds t' f := by
  constructor
  · rw [hsame]
    exact h.ascending
  · rw [hsame]
    exact h.valid
  · rw [hsame]
    exact h.smallest
  · rw [hsame]
    exact h.largest

theorem Layered.congr (h : Layered v t) (hsame : forall n, n ∈ v.live -> t' n = t n) :
    Layered v t' := by
  have hlive : forall f, f ∈ v.all -> t' f.fileNum = t f.fileNum :=
    fun f hf => hsame _ (List.mem_map_of_mem hf)
  constructor
  · exact h.wellFormed
  · exact fun f hf => (h.tables f hf).congr (hlive f hf)
  · exact h.apart
  · intro f f' hf hf' hshallow p q hp hq
    rw [hlive f hf] at hp
    rw [hlive f' hf'] at hq
    exact h.recency f f' hf hf' hshallow p q hp hq

theorem mem_entries_congr (hsame : forall n, n ∈ v.live -> t' n = t n) :
    p ∈ entries v t' <-> p ∈ entries v t := by
  rw [mem_entries, mem_entries]
  constructor
  · rintro ⟨f, hf, hp⟩
    rw [hsame _ (List.mem_map_of_mem hf)] at hp
    exact ⟨f, hf, hp⟩
  · rintro ⟨f, hf, hp⟩
    refine ⟨f, hf, ?_⟩
    rw [hsame _ (List.mem_map_of_mem hf)]
    exact hp

structure Received (v : Version) (f : FileMeta) (v' : Version) : Prop where
  deeper : forall l, l.val ≠ 0 -> v'.files l = v.files l
  level0 : forall l g, l.val = 0 -> (g ∈ v'.files l <-> g ∈ v.files l ∨ g = f)

theorem applyEdit_flush (hv : v.WellFormed) (hlevel : f.level = 0) (hnew : f.fileNum ∉ v.live)
    (hbounds : checkBounds f = .ok ()) (hadd : e.addFiles = [f]) (hdelete : e.deleteFiles = []) :
    exists v', applyEdit v e = .ok v' ∧ Received v f v' := by
  have hlt : f.level < numLevels := by
    rw [hlevel]
    decide
  let added := v.setLevel ⟨f.level, hlt⟩ (v.files ⟨f.level, hlt⟩ ++ [f])
  have hsame : forall l : Level, l.val ≠ 0 -> added.files l = v.files l := by
    intro l hl
    apply Version.files_setLevel_of_ne
    rintro rfl
    exact hl hlevel
  have hdeeper : forall l : Level, l.val ≠ 0 -> (sortLevels added).files l = v.files l := by
    intro l hl
    show (added.files l).insertionSort (Before l) = v.files l
    rw [hsame l hl]
    exact List.Pairwise.insertionSort_eq (hv.sorted l)
  refine ⟨sortLevels added, applyEdit_eq_ok.mpr ⟨v, added, ?_, ?_, ?_, ?_, rfl⟩, hdeeper, ?_⟩
  · rw [hdelete]
    rfl
  · rw [hadd]
    apply bind_eq_ok.mpr ⟨added, _, rfl⟩
    unfold addFile
    rw [dif_pos hlt, if_neg hnew]
  · intro g hg
    rw [hadd] at hg
    rw [List.mem_singleton.mp hg]
    exact hbounds
  · intro l
    have hok := hv.disjoint l
    unfold checkLevel at hok ⊢
    split
    · rfl
    · next hl =>
        rw [if_neg hl] at hok
        rw [hdeeper l hl]
        exact hok
  · intro l g hl
    have hl' : l = ⟨f.level, hlt⟩ := Fin.ext (hl.trans hlevel.symm)
    show g ∈ (added.files l).insertionSort (Before l) <-> _
    rw [(List.perm_insertionSort (Before l) (added.files l)).mem_iff, hl']
    show g ∈ (v.setLevel _ _).files _ <-> _
    rw [Version.files_setLevel_same, List.mem_append, List.mem_singleton]

namespace Received

theorem mem_all (h : Received v f v') : g ∈ v'.all <-> g ∈ v.all ∨ g = f := by
  rw [Version.mem_all, Version.mem_all]
  constructor
  · rintro ⟨l, hg⟩
    rcases Decidable.em (l.val = 0) with hl | hl
    · rcases (h.level0 l g hl).mp hg with hg | rfl
      · exact Or.inl ⟨l, hg⟩
      · exact Or.inr rfl
    · rw [h.deeper l hl] at hg
      exact Or.inl ⟨l, hg⟩
  · rintro (⟨l, hg⟩ | rfl)
    · rcases Decidable.em (l.val = 0) with hl | hl
      · exact ⟨l, (h.level0 l g hl).mpr (Or.inl hg)⟩
      · exact ⟨l, (h.deeper l hl).symm ▸ hg⟩
    · exact ⟨⟨0, by decide⟩, (h.level0 _ g rfl).mpr (Or.inr rfl)⟩

theorem mem_live (h : Received v f v') {n : Nat} :
    n ∈ v'.live <-> n ∈ v.live ∨ n = f.fileNum := by
  unfold Version.live
  rw [List.mem_map, List.mem_map]
  constructor
  · rintro ⟨g, hg, rfl⟩
    rcases h.mem_all.mp hg with hg | rfl
    · exact Or.inl ⟨g, hg, rfl⟩
    · exact Or.inr rfl
  · rintro (⟨g, hg, rfl⟩ | rfl)
    · exact ⟨g, h.mem_all.mpr (Or.inl hg), rfl⟩
    · exact ⟨f, h.mem_all.mpr (Or.inr rfl), rfl⟩

theorem mem_entries (h : Received v f v') :
    p ∈ entries v' t <-> p ∈ entries v t ∨ p ∈ t f.fileNum := by
  rw [Engine.mem_entries, Engine.mem_entries]
  constructor
  · rintro ⟨g, hg, hp⟩
    rcases h.mem_all.mp hg with hg | rfl
    · exact Or.inl ⟨g, hg, hp⟩
    · exact Or.inr hp
  · rintro (⟨g, hg, hp⟩ | hp)
    · exact ⟨g, h.mem_all.mpr (Or.inl hg), hp⟩
    · exact ⟨f, h.mem_all.mpr (Or.inr rfl), hp⟩

theorem layered (h : Received v f v') (hv : Layered v t) (hwell : v'.WellFormed)
    (hlevel : f.level = 0) (hholds : Holds t f)
    (hyoung : forall l g, l.val = 0 -> g ∈ v.files l -> g.fileNum < f.fileNum)
    (hlater : forall p, p ∈ t f.fileNum -> forall q, q ∈ entries v t -> q.seq < p.seq) :
    Layered v' t where
  wellFormed := hwell
  tables := by
    intro g hg
    rcases h.mem_all.mp hg with hg | rfl
    · exact hv.tables g hg
    · exact hholds
  apart := by
    intro g g' hg hg' hsame hpos
    rcases h.mem_all.mp hg with hg | rfl
    · rcases h.mem_all.mp hg' with hg' | rfl
      · exact hv.apart g g' hg hg' hsame hpos
      · exact absurd (hsame.trans hlevel) hpos
    · exact absurd hlevel hpos
  recency := by
    intro g g' hg hg' hshallow p q hp hq huser
    rcases h.mem_all.mp hg with hg | rfl
    · rcases h.mem_all.mp hg' with hg' | rfl
      · exact hv.recency g g' hg hg' hshallow p q hp hq huser
      · -- No table comes before the one that was added.
        rcases hshallow with hlt | ⟨hzero, _, hlt⟩
        · rw [hlevel] at hlt
          cases hlt
        · rcases Version.mem_all.mp hg with ⟨l, hl⟩
          have hlt' := hyoung l g ((hv.wellFormed.level l g hl).symm.trans hzero) hl
          lia
    · rcases h.mem_all.mp hg' with hg' | rfl
      · exact hlater p hp q (Engine.mem_entries.mpr ⟨g', hg', hq⟩)
      · rcases hshallow with hlt | ⟨_, _, hlt⟩
        · exact absurd hlt (Nat.lt_irrefl _)
        · exact absurd hlt (Nat.lt_irrefl _)

theorem flushed (h : Received v₁ f v') (hflush : Flushed v v₁)
    (hyoung : forall l g, l.val = 0 -> g ∈ v₁.files l -> g.fileNum < f.fileNum) :
    Flushed v v' where
  deeper := fun l hl => (h.deeper l hl).trans (hflush.deeper l hl)
  kept := by
    intro l g hg
    rcases Decidable.em (l.val = 0) with hl | hl
    · exact (h.level0 l g hl).mpr (Or.inl (hflush.kept l g hg))
    · rw [h.deeper l hl]
      exact hflush.kept l g hg
  younger := by
    intro l g g' hl hg hnot hg'
    rcases (h.level0 l g hl).mp hg with hg | rfl
    · exact hflush.younger l g g' hl hg hnot hg'
    · exact hyoung l g' hl (hflush.kept l g' hg')

end Received

end Engine
end Basalt
