import Basalt.Engine.Compaction

/-!
# The inputs of a compaction

The inputs are merged without two versions of the same sequence number, and a
table of the output level that is not among them lies on one side of all their
keys.
-/

namespace Basalt
namespace Engine

open Lib Base Std Manifest

/-!
## What is chosen
-/

theorem rotate_mem {files : List FileMeta} {ptr : Option Bytes} {f : FileMeta}
    (h : rotate files ptr = some f) : f ∈ files := by
  unfold rotate at h
  split at h
  · exact List.mem_of_mem_head? h
  · rename_i ptr
    rcases Option.or_eq_some_iff.mp h with hfind | ⟨_, hhead⟩
    · exact List.mem_of_find?_eq_some hfind
    · exact List.mem_of_mem_head? hhead

theorem exists_rotate {files : List FileMeta} (h : files ≠ []) (ptr : Option Bytes) :
    exists f, rotate files ptr = some f := by
  cases files with
  | nil => exact absurd rfl h
  | cons a files =>
      unfold rotate
      split
      · exact ⟨a, rfl⟩
      · rename_i ptr
        cases hfind : (a :: files).find? fun f => ¬ KeyLE f.smallest ptr with
        | none => exact ⟨a, rfl⟩
        | some f => exact ⟨f, rfl⟩

section BestLevel

variable {score : Level -> Float64} {ls : List Level} {best : Option Level}
  {bestScore least : Float64} {l : Level}

theorem bestLevel_eq_some (hleast : least ≤ bestScore)
    (h : bestLevel score ls best bestScore = some l) :
    best = some l ∨ (l ∈ ls ∧ least ≤ score l) := by
  induction ls generalizing best bestScore with
  | nil => exact Or.inl h
  | cons a ls ih =>
      unfold bestLevel at h
      split at h
      · rename_i hle
        have hbest : least ≤ score a := Float64.le_trans hleast hle
        rcases ih hbest h with hold | ⟨hmem, hscore⟩
        · cases hold
          exact Or.inr ⟨List.mem_cons_self, hbest⟩
        · exact Or.inr ⟨List.mem_cons_of_mem a hmem, hscore⟩
      · rcases ih hleast h with hold | ⟨hmem, hscore⟩
        · exact Or.inl hold
        · exact Or.inr ⟨List.mem_cons_of_mem a hmem, hscore⟩

theorem bestLevel_some_ne_none (a : Level) : bestLevel score ls (some a) bestScore ≠ none := by
  induction ls generalizing a bestScore with
  | nil =>
      intro h
      cases h
  | cons b ls ih =>
      unfold bestLevel
      split
      · exact ih b
      · exact ih a

theorem bestLevel_eq_none (h : bestLevel score ls none bestScore = none) (hl : l ∈ ls) :
    ¬ bestScore ≤ score l := by
  induction ls with
  | nil => cases hl
  | cons a ls ih =>
      unfold bestLevel at h
      split at h
      · exact absurd h (bestLevel_some_ne_none a)
      · rename_i hle
        rcases List.mem_cons.mp hl with rfl | hl
        · exact hle
        · exact ih h hl

end BestLevel

theorem pickLevel_eq_some {opts : Options} {v : Version} {level : Level}
    (h : opts.pickLevel v = some level) :
    level.val + 1 < numLevels ∧ .finite 1 ≤ opts.score v level := by
  have hone : Float64.finite 1 ≤ .finite 1 := Rat.le_refl
  unfold Options.pickLevel at h
  rcases bestLevel_eq_some hone h with hold | ⟨hmem, hscore⟩
  · cases hold
  · exact ⟨of_decide_eq_true (List.mem_filter.mp hmem).right, hscore⟩

theorem pickLevel_eq_none {opts : Options} {v : Version} (h : opts.pickLevel v = none)
    {level : Level} (hl : level.val + 1 < numLevels) : ¬ .finite 1 ≤ opts.score v level := by
  unfold Options.pickLevel at h
  apply bestLevel_eq_none h
  exact List.mem_filter.mpr ⟨List.mem_finRange level, decide_eq_true hl⟩

theorem files_ne_nil {opts : Options} {v : Version} {level : Level}
    (h : .finite 1 ≤ opts.score v level) : v.files level ≠ [] := by
  intro hnil
  unfold Options.score totalBytes levelBytes at h
  rw [hnil] at h
  split at h
  · exact Float64.not_one_le_quotient _ h
  · exact Float64.not_one_le_quotient _ h

structure Chosen (v : Version) (c : Compaction) (level output : Level) : Prop where
  next : output.val = level.val + 1
  into : c.output = output.val
  nonempty : c.inMeta ≠ []
  sublist : c.inMeta.Sublist (v.files level)
  whole : level.val = 0 -> c.inMeta = v.files level
  overlaps : c.inMetaOutput = overlapping (v.files output) (userKeyRange c.inMeta)
  below : forall l f, output.val < l.val -> f ∈ v.files l ->
    exists level, level ∈ c.below ∧ f ∈ level

theorem chosen_compactionAt {v : Version} {level output : Level}
    (hnext : output.val = level.val + 1) (h : v.files level ≠ []) (ptr : Option Bytes) :
    Chosen v (compactionAt v level output ptr) level output := by
  rcases exists_rotate h ptr with ⟨f, hf⟩
  constructor
  · exact hnext
  · rfl
  · unfold compactionAt
    dsimp only
    split
    · exact h
    · rw [hf]
      exact List.cons_ne_nil f []
  · unfold compactionAt
    dsimp only
    split
    · exact List.Sublist.refl _
    · rw [hf]
      exact List.singleton_sublist.mpr (rotate_mem hf)
  · intro hzero
    exact if_pos hzero
  · rfl
  · intro l f hl hf
    refine ⟨v.files l, List.mem_map.mpr ⟨l, ?_, rfl⟩, hf⟩
    rw [List.mem_filter]
    exact ⟨List.mem_finRange l, decide_eq_true hl⟩

theorem Pickable.chosen {v : Version} {c : Compaction} (h : Pickable v c) :
    exists level output, Chosen v c level output := by
  rcases h with ⟨level, output, ptr, hnext, hne, rfl⟩
  exact ⟨level, output, chosen_compactionAt hnext hne ptr⟩

theorem pickable_of_pickCompaction {opts : Options} {v : Version} {c : Compaction}
    {compactPtr compactPtr' : Level -> Option Bytes}
    (h : pickCompaction opts v compactPtr = some (c, compactPtr')) : Pickable v c := by
  unfold pickCompaction at h
  rcases Option.bind_eq_some_iff.mp h with ⟨level, hlevel, h⟩
  rcases pickLevel_eq_some hlevel with ⟨hl, hscore⟩
  rw [dif_pos hl] at h
  refine ⟨level, ⟨level.val + 1, hl⟩, compactPtr level, rfl, files_ne_nil hscore, ?_⟩
  dsimp only at h
  split at h
  · cases h
    rfl
  · cases h
    rfl

/-!
## The range of the inputs
-/

section Range

variable {metas : List FileMeta} {f : FileMeta}

theorem lower_spec (uk : Option Bytes) (s : Bytes) :
    exists lo, lower uk s = some lo ∧ (compare lo s).isLE = true ∧
      forall x, uk = some x -> (compare lo x).isLE = true := by
  have hself : forall x : Bytes, (compare x x).isLE = true := by
    intro x
    have heq : compare x x = .eq := cmp_self x
    rw [heq]
    rfl
  unfold lower
  split
  · exact ⟨s, rfl, hself s, fun x hx => by cases hx⟩
  · rename_i x
    split
    · rename_i hlt
      refine ⟨s, rfl, hself s, fun y hy => ?_⟩
      cases hy
      rw [hlt]
      rfl
    · rename_i hlt
      refine ⟨x, rfl, isLE_of_not_isLT (by rwa [Ordering.isLT_iff_eq_lt]), fun y hy => ?_⟩
      cases hy
      exact hself x

theorem upper_spec (uk : Option Bytes) (s : Bytes) :
    exists hi, upper uk s = some hi ∧ (compare s hi).isLE = true ∧
      forall x, uk = some x -> (compare x hi).isLE = true := by
  have hself : forall x : Bytes, (compare x x).isLE = true := by
    intro x
    have heq : compare x x = .eq := cmp_self x
    rw [heq]
    rfl
  unfold upper
  split
  · exact ⟨s, rfl, hself s, fun x hx => by cases hx⟩
  · rename_i x
    split
    · rename_i hgt
      refine ⟨s, rfl, hself s, fun y hy => ?_⟩
      cases hy
      rw [OrientedCmp.lt_of_gt hgt]
      rfl
    · rename_i hgt
      refine ⟨x, rfl, ?_, fun y hy => ?_⟩
      · cases hcmp : compare s x with
        | lt | eq => rfl
        | gt => exact absurd hcmp hgt
      · cases hy
        exact hself x

theorem userKeyRange_spec (h : metas ≠ []) :
    exists lo hi, userKeyRange metas = (some lo, some hi) ∧
      forall f, f ∈ metas -> (compare lo (userKey f.smallest)).isLE = true ∧
        (compare (userKey f.largest) hi).isLE = true := by
  -- Over any start, the range only grows.
  have hfold : forall (fs : List FileMeta) (lo hi : Bytes), exists lo' hi',
      fs.foldl (fun r f => (lower r.1 (userKey f.smallest), upper r.2 (userKey f.largest)))
        (some lo, some hi) = (some lo', some hi') ∧
      (compare lo' lo).isLE = true ∧ (compare hi hi').isLE = true ∧
      forall f, f ∈ fs -> (compare lo' (userKey f.smallest)).isLE = true ∧
        (compare (userKey f.largest) hi').isLE = true := by
    intro fs
    induction fs with
    | nil =>
        intro lo hi
        have hlo : compare lo lo = .eq := cmp_self lo
        have hhi : compare hi hi = .eq := cmp_self hi
        refine ⟨lo, hi, rfl, ?_, ?_, fun f hf => by cases hf⟩
        · rw [hlo]
          rfl
        · rw [hhi]
          rfl
    | cons f fs ih =>
        intro lo hi
        rcases lower_spec (some lo) (userKey f.smallest) with ⟨lo', hlo, hsmall, hold⟩
        rcases upper_spec (some hi) (userKey f.largest) with ⟨hi', hhi, hlarge, hold'⟩
        rcases ih lo' hi' with ⟨lo'', hi'', hrest, hle, hle', hall⟩
        refine ⟨lo'', hi'', ?_, TransCmp.isLE_trans hle (hold lo rfl),
          TransCmp.isLE_trans (hold' hi rfl) hle', ?_⟩
        · rw [List.foldl_cons, hlo, hhi, hrest]
        · intro g hg
          rcases List.mem_cons.mp hg with rfl | hg
          · exact ⟨TransCmp.isLE_trans hle hsmall, TransCmp.isLE_trans hlarge hle'⟩
          · exact hall g hg
  cases metas with
  | nil => exact absurd rfl h
  | cons f fs =>
      rcases lower_spec none (userKey f.smallest) with ⟨lo, hlo, hsmall, _⟩
      rcases upper_spec none (userKey f.largest) with ⟨hi, hhi, hlarge, _⟩
      rcases hfold fs lo hi with ⟨lo', hi', hrest, hle, hle', hall⟩
      refine ⟨lo', hi', ?_, ?_⟩
      · unfold userKeyRange
        rw [List.foldl_cons, hlo, hhi, hrest]
      · intro g hg
        rcases List.mem_cons.mp hg with rfl | hg
        · exact ⟨TransCmp.isLE_trans hle hsmall, TransCmp.isLE_trans hlarge hle'⟩
        · exact hall g hg

theorem mem_overlapping {lo hi : Bytes} :
    f ∈ overlapping metas (some lo, some hi) <->
      f ∈ metas ∧ ¬ (compare (userKey f.largest) lo = .lt ∨
        compare (userKey f.smallest) hi = .gt) := by
  unfold overlapping
  rw [List.mem_filter, decide_eq_true_iff]
  rfl

end Range

/-!
## The merge of the inputs
-/

section Inputs

variable {v : Version} {t : Sources} {c : Compaction} {level output : Level} {f f' : FileMeta}
  {p q : Pair}

theorem Chosen.mem_inputs (h : Chosen v c level output) (hf : f ∈ c.inputs) :
    (f ∈ c.inMeta ∧ f ∈ v.files level) ∨ (f ∈ c.inMetaOutput ∧ f ∈ v.files output) := by
  rcases List.mem_append.mp hf with hf | hf
  · exact Or.inl ⟨hf, h.sublist.subset hf⟩
  · refine Or.inr ⟨hf, ?_⟩
    rw [h.overlaps] at hf
    exact (List.mem_filter.mp hf).left

theorem Chosen.mem_all (h : Chosen v c level output) (hf : f ∈ c.inputs) : f ∈ v.all := by
  rcases h.mem_inputs hf with ⟨_, hf⟩ | ⟨_, hf⟩
  · exact Version.mem_all.mpr ⟨level, hf⟩
  · exact Version.mem_all.mpr ⟨output, hf⟩

theorem Chosen.nodup (h : Chosen v c level output) (hv : v.WellFormed) :
    (c.inputs.map FileMeta.fileNum).Nodup := by
  have hsub : c.inMetaOutput.Sublist (v.files output) := by
    rw [h.overlaps]
    exact List.filter_sublist
  unfold Compaction.inputs
  rw [List.map_append]
  apply ((hv.nodup level).sublist (h.sublist.map _)).append
    ((hv.nodup output).sublist (hsub.map _))
  intro n hn hn'
  rcases List.mem_map.mp hn with ⟨f, hf, rfl⟩
  rcases List.mem_map.mp hn' with ⟨f', hf', hnum⟩
  have heq := hv.apart output level f' f (hsub.subset hf') (h.sublist.subset hf) hnum
  have hval := h.next
  rw [heq] at hval
  lia

theorem Layered.compare_ne_eq (h : Layered v t) (hf : f ∈ v.all) (hf' : f' ∈ v.all)
    (hne : f.fileNum ≠ f'.fileNum) (hp : p ∈ t f.fileNum) (hq : q ∈ t f'.fileNum) :
    p.compare q ≠ .eq := by
  intro heq
  have hle : (compareKeys p.key q.key).isLE = true := by
    have hpq : compareKeys p.key q.key = .eq := heq
    rw [hpq]
    rfl
  have hge : (compareKeys q.key p.key).isLE = true := by
    have hqp : compareKeys q.key p.key = .eq := OrientedCmp.eq_symm heq
    rw [hqp]
    rfl
  have huser : p.userKey = q.userKey := by
    cases hcmp : compare p.userKey q.userKey with
    | eq => exact LawfulEqCmp.eq_of_compare hcmp
    | lt =>
        have hlt : p.compare q = .lt := compareKeys_of_userKey_lt hcmp
        rw [hlt] at heq
        cases heq
    | gt =>
        have hlt : q.compare p = .lt := compareKeys_of_userKey_lt (OrientedCmp.lt_of_gt hcmp)
        rw [cmp_eq_gt hlt] at heq
        cases heq
  have hseq : p.seq = q.seq := by
    have htrailer := Nat.le_antisymm (trailer_le huser.symm hge) (trailer_le huser hle)
    unfold Pair.seq keySeq
    rw [htrailer]
  -- One of the tables is asked first, or they share no user key.
  rcases Nat.lt_trichotomy f.level f'.level with hlevel | hlevel | hlevel
  · have hlt := h.recency f f' hf hf' (Or.inl hlevel) p q hp hq huser
    lia
  · rcases Nat.eq_zero_or_pos f.level with hzero | hpos
    · rcases Nat.lt_or_gt_of_ne hne with hnum | hnum
      · have hlt := h.recency f' f hf' hf (Or.inr ⟨hlevel ▸ hzero, hzero, hnum⟩) q p hq hp
          huser.symm
        lia
      · have hlt := h.recency f f' hf hf' (Or.inr ⟨hzero, hlevel ▸ hzero, hnum⟩) p q hp hq
          huser
        lia
    · exact (h.tables f hf).userKey_ne (h.tables f' hf')
        (h.apart f f' hf hf' hlevel (Nat.ne_of_gt hpos) hne) hp hq huser
  · have hlt := h.recency f' f hf' hf (Or.inl hlevel) q p hq hp huser.symm
    lia

theorem Chosen.ascending (h : Chosen v c level output) (hv : Layered v t) {merged : List Pair}
    (hperm : merged.Perm ((c.inputs.map FileMeta.fileNum).flatMap t))
    (hsorted : merged.Pairwise fun x y => (x.compare y).isLE = true) :
    Ascending Pair.compare merged := by
  have hdistinct : ((c.inputs.map FileMeta.fileNum).flatMap t).Pairwise
      fun x y => x.compare y ≠ .eq := by
    rw [List.pairwise_flatMap]
    constructor
    · intro n hn
      rcases List.mem_map.mp hn with ⟨f, hf, rfl⟩
      apply (hv.tables f (h.mem_all hf)).ascending.imp
      intro a b hab heq
      rw [hab] at heq
      cases heq
    · rw [List.pairwise_map]
      have hnodup := List.pairwise_map.mp (h.nodup hv.wellFormed)
      refine List.Pairwise.imp_of_mem ?_ hnodup
      intro f f' hf hf' hne x hx y hy
      exact hv.compare_ne_eq (h.mem_all hf) (h.mem_all hf') hne hx hy
  have hmerged : merged.Pairwise fun x y => x.compare y ≠ .eq := by
    refine (hperm.pairwise_iff ?_).mpr hdistinct
    intro a b hab heq
    exact hab (OrientedCmp.eq_symm heq)
  refine (hsorted.and hmerged).imp ?_
  intro a b hab
  cases hcmp : a.compare b with
  | lt => rfl
  | eq => exact absurd hcmp hab.right
  | gt =>
      rw [hcmp] at hab
      cases hab.left

theorem Chosen.one_side (h : Chosen v c level output) (hv : Layered v t)
    (hf : f ∈ v.files output) (hnot : f ∉ c.inMetaOutput) :
    (forall g p, g ∈ c.inputs -> p ∈ t g.fileNum ->
        compare (userKey f.largest) p.userKey = .lt) ∨
      forall g p, g ∈ c.inputs -> p ∈ t g.fileNum ->
        compare p.userKey (userKey f.smallest) = .lt := by
  rcases userKeyRange_spec h.nonempty with ⟨lo, hi, hrange, hall⟩
  have hside : compare (userKey f.largest) lo = .lt ∨ compare (userKey f.smallest) hi = .gt := by
    by_contra hover
    apply hnot
    rw [h.overlaps, hrange]
    exact mem_overlapping.mpr ⟨hf, hover⟩
  have hfall : f ∈ v.all := Version.mem_all.mpr ⟨output, hf⟩
  have hpos : f.level ≠ 0 := by
    rw [hv.wellFormed.level output f hf, h.next]
    exact Nat.succ_ne_zero _
  -- The inputs of the output level reach into the range, and are apart from the table.
  have hother : forall g, g ∈ c.inMetaOutput -> g ∈ v.files output ∧ Apart f g ∧
      ¬ (compare (userKey g.largest) lo = .lt ∨ compare (userKey g.smallest) hi = .gt) := by
    intro g hg
    have hg' := hg
    rw [h.overlaps, hrange] at hg'
    rcases mem_overlapping.mp hg' with ⟨hmem, hover⟩
    refine ⟨hmem, ?_, hover⟩
    have hlevel : f.level = g.level := by
      rw [hv.wellFormed.level output f hf, hv.wellFormed.level output g hmem]
    apply hv.apart f g hfall (Version.mem_all.mpr ⟨output, hmem⟩) hlevel hpos
    intro hnum
    exact hnot (List.inj_on_of_nodup_map (hv.wellFormed.nodup output) hf hmem hnum ▸ hg)
  have hbounds := (hv.tables f hfall).bounds_isLE
  rcases hside with hbefore | hafter
  · left
    intro g p hg hp
    have hholds := hv.tables g (h.mem_all hg)
    rcases h.mem_inputs hg with ⟨hin, _⟩ | ⟨hin, _⟩
    · exact TransCmp.lt_of_lt_of_isLE hbefore
        (TransCmp.isLE_trans (hall g hin).left (hholds.smallest_isLE hp))
    · rcases hother g hin with ⟨_, hapart, hover⟩
      rcases hapart with hlt | hlt
      · exact TransCmp.lt_of_lt_of_isLE hlt (hholds.smallest_isLE hp)
      · exact absurd (TransCmp.lt_trans hlt (TransCmp.lt_of_isLE_of_lt hbounds hbefore))
          (fun hbad => hover (Or.inl hbad))
  · right
    have hafter := OrientedCmp.lt_of_gt hafter
    intro g p hg hp
    have hholds := hv.tables g (h.mem_all hg)
    rcases h.mem_inputs hg with ⟨hin, _⟩ | ⟨hin, _⟩
    · exact TransCmp.lt_of_isLE_of_lt
        (TransCmp.isLE_trans (hholds.isLE_largest hp) (hall g hin).right) hafter
    · rcases hother g hin with ⟨_, hapart, hover⟩
      rcases hapart with hlt | hlt
      · have hbad := TransCmp.lt_of_lt_of_isLE hafter hbounds
        exact absurd (OrientedCmp.gt_of_lt (TransCmp.lt_trans hbad hlt))
          (fun hbad => hover (Or.inr hbad))
      · exact TransCmp.lt_of_isLE_of_lt (hholds.isLE_largest hp) hlt

theorem Chosen.keyMayExistBelow (h : Chosen v c level output) (hv : Layered v t) {l : Level}
    (hl : output.val < l.val) (hf : f ∈ v.files l) (hp : p ∈ t f.fileNum) :
    c.keyMayExistBelow p.userKey = true := by
  rcases h.below l f hl hf with ⟨fs, hfs, hmem⟩
  have hholds := hv.tables f (Version.mem_all.mpr ⟨l, hf⟩)
  unfold Compaction.keyMayExistBelow
  rw [List.any_eq_true]
  refine ⟨fs, hfs, ?_⟩
  rw [List.any_eq_true]
  refine ⟨f, hmem, ?_⟩
  rw [hholds.smallest_isLE hp, hholds.isLE_largest hp]
  rfl

end Inputs

end Engine
end Basalt
