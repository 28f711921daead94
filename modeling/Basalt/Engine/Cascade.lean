import Mathlib.Algebra.BigOperators.Fin
import Mathlib.Algebra.Order.Field.Basic
import Mathlib.Algebra.Order.BigOperators.Group.Finset
import Mathlib.Algebra.Order.BigOperators.Group.List
import Mathlib.Tactic.Linarith
import Basalt.Engine.CompactionVisible

/-!
# The cascade of compactions

The end of a compaction schedules the next one.  Every compaction moves the pairs
of its source tables one level down and adds none, so that the cascade ends; it
ends where no level is over its trigger.
-/

namespace Basalt
namespace Engine

open Lib Base Std Manifest Compaction

/-- The tables of an engine that is at rest. -/
structure Tree where
  version : Version
  tables : Sources
  compactPtr : Level -> Option Bytes := fun _ => none
  nextFileNum : Nat

inductive CascadeError where
  | compact (e : CompactError Unit)
  | version (e : VersionError)

namespace Tree

def compact (opts : Options) (sizes : Sizes) (s : Tree) (c : Compaction) :
    Except CascadeError Tree := do
  let outs <- (c.outputs opts sizes.estimated (fun i => s.nextFileNum + i) s.tables
    fun _ _ => none).mapError .compact
  let v <- (applyEdit s.version (c.edit sizes.file outs)).mapError .version
  pure { s with
    version := v
    tables := written s.tables outs
    nextFileNum := s.nextFileNum + outs.length }

/-- At most `n` compactions, each scheduled by the end of the one before. -/
def cascade (opts : Options) (sizes : Sizes) : Nat -> Tree -> Except CascadeError Tree
  | 0, s => .ok s
  | n + 1, s =>
      match pickCompaction opts s.version s.compactPtr with
      | none => .ok s
      | some (c, compactPtr) => do
          let s' <- compact opts sizes { s with compactPtr := compactPtr } c
          cascade opts sizes n s'

/-- The levels are in order, and every table has a number that was handed out. -/
structure Sound (s : Tree) : Prop where
  layered : Layered s.version s.tables
  numbers : forall n, n ∈ s.version.live -> n < s.nextFileNum

end Tree

/-!
## The potential of the levels
-/

def load (v : Version) (t : Sources) (l : Level) : Nat :=
  ((v.files l).map fun f => (t f.fileNum).length).sum

/-- The number of levels that the pairs can still go down. -/
def potential (v : Version) (t : Sources) : Nat :=
  ∑ l : Level, (numLevels - l.val) * load v t l

theorem sum_lt_of_move {n : Nat} {w x x' : Fin n -> Nat} {i j : Fin n} {a : Nat} (hij : j ≠ i)
    (hw : w i = w j + 1) (hi : x' i + a ≤ x i) (hj : x' j ≤ x j + a)
    (hrest : forall k, k ≠ i -> k ≠ j -> x' k ≤ x k) (ha : 0 < a) :
    ∑ k, w k * x' k < ∑ k, w k * x k := by
  have hmem : j ∈ Finset.univ.erase i := Finset.mem_erase.mpr ⟨hij, Finset.mem_univ j⟩
  have hsplit : forall y : Fin n -> Nat, ∑ k, w k * y k =
      w i * y i + (w j * y j + ∑ k ∈ (Finset.univ.erase i).erase j, w k * y k) := by
    intro y
    rw [Finset.add_sum_erase _ (fun k => w k * y k) hmem,
      Finset.add_sum_erase _ (fun k => w k * y k) (Finset.mem_univ i)]
  have hother : ∑ k ∈ (Finset.univ.erase i).erase j, w k * x' k ≤
      ∑ k ∈ (Finset.univ.erase i).erase j, w k * x k := by
    apply Finset.sum_le_sum
    intro k hk
    have hk := Finset.mem_erase.mp hk
    exact Nat.mul_le_mul_left _ (hrest k (Finset.mem_erase.mp hk.right).left hk.left)
  have hmove : w i * x' i + w j * x' j < w i * x i + w j * x j := by
    have hdown := Nat.mul_le_mul_left (w j + 1) hi
    have hup := Nat.mul_le_mul_left (w j) hj
    rw [hw]
    nlinarith
  rw [hsplit x, hsplit x']
  lia

section Load

variable {v v' : Version} {t : Sources} {c : Compaction} {level output : Level}
  {merged : List Pair} {outs : List Output} {alloc : Nat -> Nat} {fileSize : List Pair -> Nat}
  {l : Level}

theorem sum_kept_add_le {fs sub : List FileMeta} (ins : List FileMeta) (g : FileMeta -> Nat)
    (hsub : sub.Sublist fs) (hin : forall f, f ∈ sub -> f ∈ ins) :
    ((fs.filter fun f => f ∉ ins).map g).sum + (sub.map g).sum ≤ (fs.map g).sum := by
  have hpart : sub.Sublist (fs.filter fun f => f ∈ ins) := by
    have hself : sub.filter (fun f => f ∈ ins) = sub :=
      List.filter_eq_self.mpr fun f hf => decide_eq_true (hin f hf)
    rw [← hself]
    exact hsub.filter _
  have hle : (sub.map g).sum ≤ ((fs.filter fun f => f ∈ ins).map g).sum :=
    (hpart.map g).sum_le_sum fun _ _ => Nat.zero_le _
  have hperm := ((List.filter_append_perm (fun f => decide (f ∈ ins)) fs).map g).sum_eq
  rw [List.map_append, List.sum_append] at hperm
  simp only [decide_not] at hperm ⊢
  lia

section Move

variable (hv : Layered v t) (hc : Chosen v c level output)
  (halloc : Function.Injective alloc) (hnew : forall i, alloc i ∉ v.live)
  (hr : Result c t alloc merged outs)
  (hperm : forall l, (v'.files l).Perm ((v.files l).filter (fun f => f ∉ c.inputs) ++
    if l = output then outs.map fun o => o.fileMeta c.output fileSize else []))

include hnew hr

theorem sum_kept (l : Level) :
    (((v.files l).filter fun f => f ∉ c.inputs).map
        fun f => (written t outs f.fileNum).length).sum =
      (((v.files l).filter fun f => f ∉ c.inputs).map fun f => (t f.fileNum).length).sum := by
  congr 1
  apply List.map_congr_left
  intro f hf
  have hlive : f.fileNum ∈ v.live :=
    Version.mem_live.mpr ⟨l, f, (List.mem_filter.mp hf).left, rfl⟩
  rw [written_of_live hnew hr hlive]

omit hnew

section Outputs

include halloc

theorem sum_outputs (fileSize : List Pair -> Nat) :
    ((outs.map fun o => o.fileMeta c.output fileSize).map
        fun f => (written t outs f.fileNum).length).sum ≤
      (c.inMeta.map fun f => (t f.fileNum).length).sum +
        (c.inMetaOutput.map fun f => (t f.fileNum).length).sum := by
  have hlengths : ((outs.map fun o => o.fileMeta c.output fileSize).map
      fun f => (written t outs f.fileNum).length) = outs.map fun o => o.pairs.length := by
    rw [List.map_map]
    apply List.map_congr_left
    intro o ho
    show (written t outs o.fileNum).length = o.pairs.length
    rw [written_of_mem (hr.nodup halloc) ho]
  have hsurvive : (outs.map fun o => o.pairs.length).sum = (c.survivors none merged).length := by
    rw [← hr.pairs, List.length_flatMap]
  have hmerged : merged.length = (c.inMeta.map fun f => (t f.fileNum).length).sum +
      (c.inMetaOutput.map fun f => (t f.fileNum).length).sum := by
    rw [hr.perm.length_eq, List.length_flatMap, List.map_map, Compaction.inputs,
      List.map_append, List.sum_append]
    rfl
  rw [hlengths, hsurvive, ← hmerged]
  exact (survivors_sublist c none merged).length_le

end Outputs

include hnew hperm

theorem load_eq (l : Level) :
    load v' (written t outs) l =
      (((v.files l).filter fun f => f ∉ c.inputs).map fun f => (t f.fileNum).length).sum +
        if l = output then ((outs.map fun o => o.fileMeta c.output fileSize).map
          fun f => (written t outs f.fileNum).length).sum else 0 := by
  unfold load
  rw [((hperm l).map _).sum_eq, List.map_append, List.sum_append, sum_kept hnew hr l]
  congr 1
  split
  · rfl
  · rfl

include hv hc halloc

theorem potential_lt : potential v' (written t outs) < potential v t := by
  have hne : level ≠ output := by
    intro heq
    have hval := hc.next
    rw [heq] at hval
    lia
  have hsub : c.inMetaOutput.Sublist (v.files output) := by
    rw [hc.overlaps]
    exact List.filter_sublist
  have hlevel := sum_kept_add_le c.inputs (fun f => (t f.fileNum).length) hc.sublist
    (fun f hf => List.mem_append_left c.inMetaOutput hf)
  have houtput := sum_kept_add_le c.inputs (fun f => (t f.fileNum).length) hsub
    (fun f hf => List.mem_append_right c.inMeta hf)
  have houts := sum_outputs halloc hr fileSize
  have hload := load_eq hnew hr hperm
  apply sum_lt_of_move (i := level) (j := output)
    (a := (c.inMeta.map fun f => (t f.fileNum).length).sum) hne.symm
  · have hlt := output.isLt
    have hnext := hc.next
    show numLevels - level.val = numLevels - output.val + 1
    lia
  · rw [hload, if_neg hne, Nat.add_zero]
    exact hlevel
  · rw [hload, if_pos rfl]
    unfold load
    lia
  · intro l _ hl
    have hrest := sum_kept_add_le c.inputs (fun f => (t f.fileNum).length)
      (List.nil_sublist (v.files l)) (fun f hf => (by cases hf))
    rw [hload, if_neg hl, Nat.add_zero]
    unfold load
    simpa using hrest
  · cases hin : c.inMeta with
    | nil => exact absurd hin hc.nonempty
    | cons f fs =>
        have hf : f ∈ c.inputs := by
          unfold Compaction.inputs
          rw [hin]
          exact List.mem_cons_self
        rcases (hv.tables f (hc.mem_all hf)).exists_mem with ⟨p, hp⟩
        have hpos := List.length_pos_of_mem hp
        rw [List.map_cons, List.sum_cons]
        lia

end Move

end Load

/-!
## The run of the cascade
-/

namespace Tree

variable {opts : Options} {s s' : Tree}

theorem injective_alloc (n : Nat) : Function.Injective fun i => n + i :=
  fun _ _ h => Nat.add_left_cancel h

theorem Sound.alloc (h : s.Sound) (i : Nat) : s.nextFileNum + i ∉ s.version.live := by
  intro hlive
  have hlt := h.numbers _ hlive
  lia

/-- A compaction that is scheduled runs, and uses up potential. -/
theorem compact_spec (sizes : Sizes) (h : s.Sound) {c : Compaction}
    {compactPtr : Level -> Option Bytes}
    (hpick : pickCompaction opts s.version s.compactPtr = some (c, compactPtr)) :
    exists s', compact opts sizes { s with compactPtr := compactPtr } c = .ok s' ∧ s'.Sound ∧
      potential s'.version s'.tables < potential s.version s.tables := by
  rcases (pickable_of_pickCompaction hpick).chosen with ⟨level, output, hc⟩
  have halloc := injective_alloc s.nextFileNum
  rcases outputs_spec hc h.layered opts sizes.estimated (fun i => s.nextFileNum + i)
    (fun _ _ => (none : Option Unit)) with ⟨merged, outs, hout, hr⟩ | ⟨_, _, _, _, _, hfault⟩
  · rcases applyEdit_compaction h.layered h.layered (Flushed.refl _) hc halloc h.alloc hr
      sizes.file with ⟨v', hok, hfiles, hperm⟩
    have hpres := preserves_edited h.layered h.layered (Flushed.refl _) hc halloc h.alloc hr hok
      hfiles
    let next : Tree :=
      { version := v'
        tables := written s.tables outs
        compactPtr := compactPtr
        nextFileNum := s.nextFileNum + outs.length }
    refine ⟨next, ?_, ⟨hpres.layered, ?_⟩, ?_⟩
    · exact bind_eq_ok.mpr ⟨outs, mapError_eq_ok.mpr hout,
        bind_eq_ok.mpr ⟨v', mapError_eq_ok.mpr hok, rfl⟩⟩
    · intro n hn
      rcases Version.mem_live.mp hn with ⟨l, f, hf, rfl⟩
      rcases (hfiles l f).mp hf with ⟨hold, _⟩ | ⟨_, o, ho, rfl⟩
      · have hlt := h.numbers f.fileNum (Version.mem_live.mpr ⟨l, f, hold, rfl⟩)
        show f.fileNum < s.nextFileNum + outs.length
        lia
      · have hnum : o.fileNum ∈ (List.range outs.length).map fun i => s.nextFileNum + i := by
          rw [← hr.numbers]
          exact List.mem_map_of_mem ho
        rcases List.mem_map.mp hnum with ⟨i, hi, heq⟩
        have hlt := List.mem_range.mp hi
        show o.fileNum < s.nextFileNum + outs.length
        lia
    · exact potential_lt h.layered hc halloc h.alloc hr hperm
  · cases hfault

theorem cascade_of_none (sizes : Sizes)
    (h : pickCompaction opts s.version s.compactPtr = none) (m : Nat) :
    cascade opts sizes m s = .ok s := by
  cases m with
  | zero => rfl
  | succ m =>
      unfold cascade
      rw [h]

/-- The cascade comes to rest. -/
theorem cascade_settles (opts : Options) (sizes : Sizes) (h : s.Sound) :
    exists n s', pickCompaction opts s'.version s'.compactPtr = none ∧ s'.Sound ∧
      forall m, n ≤ m -> cascade opts sizes m s = .ok s' := by
  induction hp : potential s.version s.tables using Nat.strongRecOn generalizing s with
  | _ p ih =>
      cases hpick : pickCompaction opts s.version s.compactPtr with
      | none =>
          exact ⟨0, s, hpick, h, fun m _ => cascade_of_none sizes hpick m⟩
      | some r =>
          rcases compact_spec sizes h hpick with ⟨mid, hmid, hsound, hlt⟩
          rcases ih _ (hp ▸ hlt) hsound rfl with ⟨n, s', hnone, hsound', hrun⟩
          refine ⟨n + 1, s', hnone, hsound', fun m hm => ?_⟩
          cases m with
          | zero => exact absurd hm (Nat.not_succ_le_zero n)
          | succ m =>
              unfold cascade
              rw [hpick]
              exact bind_eq_ok.mpr ⟨mid, hmid, hrun m (Nat.le_of_succ_le_succ hm)⟩

end Tree

/-!
## Where it ends
-/

section Triggers

variable {opts o : Options} {v : Version} {l : Level}

theorem pickLevel_of_pickCompaction {compactPtr : Level -> Option Bytes}
    (h : pickCompaction opts v compactPtr = none) : opts.pickLevel v = none := by
  cases hpick : opts.pickLevel v with
  | none => rfl
  | some level =>
      unfold pickCompaction at h
      rw [hpick, Option.bind_eq_bind, Option.bind_some,
        dif_pos (pickLevel_eq_some hpick).left] at h
      dsimp only at h
      split at h
      · cases h
      · cases h

theorem maxBytes_eq (hpos : 0 < opts.levelBytesBase)
    (h : opts.levelBytesBase * 10 ^ 5 < 2 ^ 63) (hl : l.val < 7) :
    opts.maxBytes l.val = opts.levelBytesBase * 10 ^ (l.val - 1) := by
  have hpow : (10 : Int) ^ (l.val - 1) ≤ 10 ^ 5 := by
    apply pow_le_pow_right₀ (by norm_num)
    lia
  have hle := Int.mul_le_mul_of_nonneg_left hpow (Int.le_of_lt hpos)
  have hnonneg : 0 ≤ opts.levelBytesBase * 10 ^ (l.val - 1) :=
    Int.mul_nonneg (Int.le_of_lt hpos) (by positivity)
  unfold Options.maxBytes
  apply Int.bmod_eq_of_le
  · lia
  · lia

theorem length_lt_of_score (hpos : 0 < opts.l0CompactThreshold) (hl : l.val = 0)
    (h : ¬ .finite 1 ≤ opts.score v l) :
    ((v.files l).length : Int) < opts.l0CompactThreshold := by
  rw [Options.score, if_pos hl] at h
  exact Int.not_le.mp fun hge => h (Float64.one_le_quotient hpos hge)

theorem totalBytes_lt_of_score (hl : l.val ≠ 0) (hpos : 0 < opts.maxBytes l.val)
    (h : ¬ .finite 1 ≤ opts.score v l) : (totalBytes v l : Int) < opts.maxBytes l.val := by
  rw [Options.score, if_neg hl] at h
  exact Int.not_le.mp fun hge => h (Float64.one_le_quotient hpos hge)

end Triggers

/-- Without further writes the compactions end, with every level below its trigger.  A
level that holds 2^64 bytes or more is seen modulo 2^64. -/
theorem cascade_terminates (o : Options) (sizes : Sizes) {s : Tree} (h : s.Sound)
    (hbase : o.defaults.levelBytesBase * 10 ^ 5 < 2 ^ 63) :
    exists n s', (forall m, n ≤ m -> s.cascade o.defaults sizes m = .ok s') ∧
      pickCompaction o.defaults s'.version s'.compactPtr = none ∧
      (forall l : Level, l.val = 0 ->
        ((s'.version.files l).length : Int) < o.defaults.l0CompactThreshold) ∧
      forall l : Level, 0 < l.val -> l.val < 6 ->
        (totalBytes s'.version l : Int) < o.defaults.levelBytesBase * 10 ^ (l.val - 1) ∧
        (levelBytes s'.version l < 2 ^ 64 ->
          (levelBytes s'.version l : Int) < o.defaults.levelBytesBase * 10 ^ (l.val - 1)) := by
  rcases Tree.cascade_settles o.defaults sizes h with ⟨n, s', hnone, _, hrun⟩
  have hscore : forall l : Level, l.val + 1 < numLevels ->
      ¬ .finite 1 ≤ o.defaults.score s'.version l :=
    fun l => pickLevel_eq_none (pickLevel_of_pickCompaction hnone)
  have hthreshold : 0 < o.defaults.l0CompactThreshold := positiveOr_pos (by decide)
  have hbytes : 0 < o.defaults.levelBytesBase := positiveOr_pos (by decide)
  refine ⟨n, s', hrun, hnone, ?_, ?_⟩
  · intro l hl
    exact length_lt_of_score hthreshold hl (hscore l (by rw [hl]; decide))
  · intro l hpos hl
    have hmax := maxBytes_eq hbytes hbase l.isLt
    have hbelow :
        (totalBytes s'.version l : Int) < o.defaults.levelBytesBase * 10 ^ (l.val - 1) := by
      rw [← hmax]
      apply totalBytes_lt_of_score (Nat.ne_of_gt hpos) _ (hscore l (Nat.succ_lt_succ hl))
      rw [hmax]
      positivity
    refine ⟨hbelow, fun hfits => ?_⟩
    rw [totalBytes, Nat.mod_eq_of_lt hfits] at hbelow
    exact hbelow

theorem cascade_terminates_pair :
    exists n s', (forall m, n ≤ m ->
        Tree.cascade pairOptions ⟨List.length, List.length⟩ m
          { version := pairVersion, tables := pairTables, nextFileNum := 3 } = .ok s') ∧
      pickCompaction pairOptions s'.version s'.compactPtr = none := by
  have hsound : Tree.Sound { version := pairVersion, tables := pairTables, nextFileNum := 3 } :=
    ⟨layered_pairVersion, by decide +kernel⟩
  rcases cascade_terminates { l0CompactThreshold := 2 } ⟨List.length, List.length⟩ hsound
    (by decide) with ⟨n, s', hrun, hnone, _⟩
  exact ⟨n, s', hrun, hnone⟩

/-!
Two tables of level 1 with 2^63 bytes each: the sum of the sizes wraps to zero.
-/

def putB : Pair := { key := appendInternalKey [98] 2 .put, value := [8] }

def vastTable (p : Pair) (num : Nat) : FileMeta :=
  { tableOf p num with level := 1, size := 2 ^ 63 }

def vastTables : Sources := fun n => if n = 1 then [putA] else if n = 2 then [putB] else []

def vastVersion : Version where
  files := fun l => if l.val = 1 then [vastTable putA 1, vastTable putB 2] else []

theorem layered_vastVersion : Layered vastVersion vastTables where
  wellFormed := {
    level := by decide +kernel
    nodup := by decide +kernel
    apart := by
      have h : forall l l' : Level, forall f, f ∈ vastVersion.files l ->
          forall f', f' ∈ vastVersion.files l' -> f.fileNum = f'.fileNum -> l = l' := by
        decide +kernel
      exact fun l l' f f' hf hf' => h l l' f hf f' hf'
    bounds := by decide +kernel
    sorted := by decide +kernel
    disjoint := by decide +kernel }
  tables := by
    intro f hf
    have hall : f ∈ [vastTable putA 1, vastTable putB 2] := hf
    rcases List.mem_cons.mp hall with rfl | hall
    · exact { holds_tableOf (t := vastTables) rfl
        (show decodeInternalKey putA.key = .ok ⟨[97], 1, .put⟩ by decide +kernel) with }
    · rw [List.mem_singleton.mp hall]
      exact { holds_tableOf (t := vastTables) rfl
        (show decodeInternalKey putB.key = .ok ⟨[98], 2, .put⟩ by decide +kernel) with }
  apart := by
    have h : forall f, f ∈ vastVersion.all -> forall f', f' ∈ vastVersion.all ->
        f.fileNum ≠ f'.fileNum -> Apart f f' := by
      decide +kernel
    exact fun f f' hf hf' _ _ hne => h f hf f' hf' hne
  recency := by
    have h : forall f, f ∈ vastVersion.all -> forall f', f' ∈ vastVersion.all ->
        ¬ Shallower f f' := by
      decide +kernel
    exact fun f f' hf hf' hshallow => absurd hshallow (h f hf f' hf')

/-- The chain ends at once, with level 1 over its budget. -/
theorem cascade_stops_vast :
    exists s : Tree, s.Sound ∧ (Options.defaults {}).levelBytesBase * 10 ^ 5 < 2 ^ 63 ∧
      (forall sizes m, s.cascade (Options.defaults {}) sizes m = .ok s) ∧
      (Options.defaults {}).levelBytesBase < levelBytes s.version ⟨1, by decide⟩ := by
  have hnone : (pickCompaction (Options.defaults {}) vastVersion fun _ => none).isNone = true := by
    decide +kernel
  refine ⟨{ version := vastVersion, tables := vastTables, nextFileNum := 3 },
    ⟨layered_vastVersion, by decide +kernel⟩, by decide, ?_, by decide +kernel⟩
  exact fun sizes => Tree.cascade_of_none sizes (Option.isNone_iff_eq_none.mp hnone)

end Engine
end Basalt
