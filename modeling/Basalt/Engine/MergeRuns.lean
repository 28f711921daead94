import Basalt.Engine.MergeHeap

/-!
# What a merge yields

A merge yields the sorted union of its children from where it was positioned,
and it can be positioned anew at any time.  An error of a child is the error of
the merge from then on.
-/

namespace Basalt
namespace Engine
namespace Heaped

open Lib Base Std

section

variable {ε : Type} {H : HeapPackage compareKeys} {m m' : MergingIter ε} {c : Child ε}
  {children : List (Child ε)} {todo : List Pair} {faults : Faults ε} {key : Bytes} {e : ε}

/-!
## The sorted union
-/

def union (children : List (Child ε)) : List Pair :=
  (children.flatMap Child.pairs).insertionSort (KeyOrder compareKeys Pair.key)

theorem union_perm (children : List (Child ε)) :
    (union children).Perm (children.flatMap Child.pairs) :=
  List.perm_insertionSort _ _

def DistinctKeys (pairs : List Pair) : Prop :=
  pairs.Pairwise fun p q => ¬ p.compare q = .eq

instance (pairs : List Pair) : Decidable (DistinctKeys pairs) :=
  inferInstanceAs (Decidable (List.Pairwise _ _))

theorem ascending_union (h : DistinctKeys (children.flatMap Child.pairs)) :
    Ascending Pair.compare (union children) := by
  have hdistinct : DistinctKeys (union children) := by
    refine (union_perm children).symm.pairwise h ?_
    intro p q hpq hqp
    exact hpq (OrientedCmp.eq_symm hqp)
  have hsorted : (union children).Pairwise fun p q => (p.compare q).isLE = true :=
    List.pairwise_insertionSort (KeyOrder compareKeys Pair.key) _
  refine List.Pairwise.imp ?_ (hsorted.and hdistinct)
  rintro p q ⟨hle, hne⟩
  cases hpq : p.compare q with
  | lt => rfl
  | eq => exact absurd hpq hne
  | gt =>
      rw [hpq] at hle
      cases hle

theorem fromKey_eq_filter {pairs : List Pair} (h : Ascending Pair.compare pairs) :
    fromKey key pairs = pairs.filter fun p => !(compareKeys p.key key).isLT := by
  induction pairs with
  | nil => rfl
  | cons p pairs ih =>
      rcases List.pairwise_cons.mp h with ⟨hall, hrest⟩
      unfold fromKey at ih ⊢
      rw [List.dropWhile_cons]
      cases hp : (compareKeys p.key key).isLT with
      | true =>
          rw [List.filter_cons_of_neg (by rw [hp]; exact Bool.false_ne_true), if_pos rfl]
          exact ih hrest
      | false =>
          rw [if_neg Bool.false_ne_true, List.filter_eq_self.mpr]
          intro q hq
          rcases List.mem_cons.mp hq with rfl | hq
          · rw [hp]
            rfl
          · cases hlt : (compareKeys q.key key).isLT with
            | false => rfl
            | true =>
                have hpq : compareKeys p.key q.key = .lt := hall q hq
                have hqk : compareKeys q.key key = .lt := Ordering.isLT_iff_eq_lt.mp hlt
                rw [TransCmp.lt_trans hpq hqk] at hp
                cases hp

theorem fromKey_union (hasc : forall c, c ∈ children -> Ascending Pair.compare c.pairs)
    (hdistinct : DistinctKeys (children.flatMap Child.pairs)) :
    (fromKey key (union children)).Perm (children.flatMap fun c => fromKey key c.pairs) := by
  have hparts : (children.flatMap fun c => fromKey key c.pairs) =
      (children.flatMap Child.pairs).filter fun p => !(compareKeys p.key key).isLT := by
    rw [List.filter_flatMap]
    exact List.flatMap_congr fun c hc => fromKey_eq_filter (hasc c hc)
  rw [fromKey_eq_filter (ascending_union hdistinct), hparts]
  exact (union_perm children).filter _

/-!
## Yielding
-/

def noFaults : Faults ε := fun _ => none

theorem positionAll_noFaults {f : List Pair -> List Pair} {i : Nat}
    (hclean : forall c, c ∈ children -> c.err = none) :
    (positionAll noFaults f i children).2.2 = none := by
  induction children generalizing i with
  | nil => rfl
  | cons c children ih =>
      rcases List.forall_mem_cons.mp hclean with ⟨hc, hrest⟩
      rw [positionAll_step hc rfl]
      exact ih hrest

/-- The merge stands on the first of the pairs, then on the next with each call
of `Next`, and is exhausted after the last. -/
inductive Yields (H : HeapPackage compareKeys) : MergingIter ε -> List Pair -> Prop where
  | exhausted {m : MergingIter ε} : m.err = none -> m.valid = false -> Yields H m []
  | pair {m m' : MergingIter ε} {p : Pair} {ps : List Pair} :
      m.err = none -> m.valid = true -> m.current = some p -> m.next H noFaults = .ok m' ->
        Yields H m' ps -> Yields H m (p :: ps)

theorem Running.yields (h : Running H m todo) : Yields H m todo := by
  induction todo generalizing m with
  | nil =>
      apply Yields.exhausted h.err
      unfold MergingIter.valid
      rw [h.heap_of_nil]
      simp
  | cons p todo ih =>
      rcases h.next_eq noFaults with ⟨top, heap, c, rest, hheap, hc, hrest, hnext⟩
      have hmove : c.move (noFaults top) rest = { pairs := c.pairs, rest := rest } :=
        Child.move_of_clean (h.clean c (List.mem_of_getElem? hc))
      rw [hmove] at hnext
      exact Yields.pair h.err h.valid_of_cons h.current_of_cons hnext
        (ih (h.settle hheap hc hrest rfl))

/-!
## Whole runs
-/

/-- What holds of a merge of `children` after any calls: the error of the merge is
that of the child that failed. -/
structure Sound (H : HeapPackage compareKeys) (children : List (Child ε)) (m : MergingIter ε) :
    Prop where
  pairs : m.children.map Child.pairs = children.map Child.pairs
  err_iff : forall e, m.err = some e <-> exists c, c ∈ m.children ∧ c.err = some e
  heap_of_err : forall e, m.err = some e -> m.heap = []
  running : m.err = none -> m.heap = [] ∨ exists todo, Running H m todo

theorem Sound.clean (h : Sound H children m) (herr : m.err = none) :
    forall c, c ∈ m.children -> c.err = none := by
  intro c hc
  cases hcerr : c.err with
  | none => rfl
  | some e =>
      rw [(h.err_iff e).mpr ⟨c, hc, hcerr⟩] at herr
      cases herr

theorem mem_pairs (hpairs : m.children.map Child.pairs = children.map Child.pairs)
    (hc : c ∈ m.children) : exists d, d ∈ children ∧ d.pairs = c.pairs := by
  have hmem : c.pairs ∈ children.map Child.pairs := by
    rw [← hpairs]
    exact List.mem_map_of_mem hc
  exact List.mem_map.mp hmem

theorem flatMap_pairs (hpairs : m.children.map Child.pairs = children.map Child.pairs)
    (f : List Pair -> List Pair) :
    (m.children.flatMap fun c => f c.pairs) = children.flatMap fun c => f c.pairs := by
  have hcomp : forall cs : List (Child ε),
      (cs.flatMap fun c => f c.pairs) = (cs.map Child.pairs).flatMap f := by
    intro cs
    rw [List.flatMap_map]
  rw [hcomp, hcomp, hpairs]

/-- The positioning calls of a consumer, and what they make of the union. -/
structure Positioning (children : List (Child ε)) (f : List Pair -> List Pair) : Prop where
  parts : forall c, c ∈ children -> Ascending Pair.compare (f c.pairs)
  whole : Ascending Pair.compare (f (union children))
  perm : (f (union children)).Perm (children.flatMap fun c => f c.pairs)

theorem positioning_id (hasc : forall c, c ∈ children -> Ascending Pair.compare c.pairs)
    (hdistinct : DistinctKeys (children.flatMap Child.pairs)) : Positioning children id where
  parts := hasc
  whole := ascending_union hdistinct
  perm := union_perm children

theorem positioning_fromKey (hasc : forall c, c ∈ children -> Ascending Pair.compare c.pairs)
    (hdistinct : DistinctKeys (children.flatMap Child.pairs)) (key : Bytes) :
    Positioning children (fromKey key) where
  parts := fun c hc => (hasc c hc).sublist (List.dropWhile_sublist _)
  whole := (ascending_union hdistinct).sublist (List.dropWhile_sublist _)
  perm := fromKey_union hasc hdistinct

variable {f : List Pair -> List Pair}

theorem Sound.running_reposition (h : Sound H children m) (hf : Positioning children f)
    (herr : m.err = none) (hnone : (m.reposition H faults f).err = none) :
    Running H (m.reposition H faults f) (f (union children)) := by
  refine Heaped.running_reposition herr (h.clean herr) ?_ ?_ hf.whole hnone
  · intro c hc
    rcases mem_pairs h.pairs hc with ⟨d, hd, hpairs⟩
    rw [← hpairs]
    exact hf.parts d hd
  · rw [flatMap_pairs h.pairs f]
    exact hf.perm

theorem Sound.reposition (h : Sound H children m) (hf : Positioning children f) :
    Sound H children (m.reposition H faults f) := by
  cases herr : m.err with
  | some e =>
      rw [reposition_of_err herr]
      exact h
  | none =>
      refine ⟨?_, fun e => ?_, fun e he => ?_, fun hnone => ?_⟩
      · rw [children_reposition herr, pairs_positionAll]
        exact h.pairs
      · rw [err_reposition herr, children_reposition herr]
        exact err_positionAll (h.clean herr) e
      · rw [err_reposition herr] at he
        rw [reposition_eq herr]
        unfold outcome
        rw [he]
        rfl
      · exact Or.inr ⟨_, h.running_reposition hf herr hnone⟩

theorem invalid_of_err (h : m.err = some e) : m.valid = false := by
  unfold MergingIter.valid
  rw [h]
  rfl

theorem next_of_invalid (h : m.valid = false) : m.next H faults = .error .nextOnInvalid := by
  unfold MergingIter.next
  rw [h]
  rfl

theorem settle_of_err {top : Nat} (herr : m.err = none) (hc : c.err = some e) :
    m.settle H top c = { children := m.children.set top c, err := some e } := by
  unfold MergingIter.settle MergingIter.fail
  rw [hc, herr]
  rfl

theorem Running.sound (h : Running H m todo)
    (hpairs : m.children.map Child.pairs = children.map Child.pairs) : Sound H children m := by
  refine ⟨hpairs, fun e => ?_, fun e he => ?_, fun _ => Or.inr ⟨todo, h⟩⟩
  · constructor
    · intro he
      rw [h.err] at he
      cases he
    · rintro ⟨c, hc, he⟩
      rw [h.clean c hc] at he
      cases he
  · rw [h.err] at he
    cases he

theorem children_settle {top : Nat} : (m.settle H top c).children = m.children.set top c := by
  unfold MergingIter.settle MergingIter.fail
  cases c.err with
  | none | some e => rfl

theorem Sound.settle {p : Pair} {top : Nat} {heap : List Nat} {rest : List Pair}
    (h : Sound H children m) (hrun : Running H m (p :: todo)) (hheap : m.heap = top :: heap)
    (hc : m.children[top]? = some c) (hrest : c.rest = p :: rest) (fault : Option ε) :
    Sound H children (m.settle H top (c.move fault rest)) := by
  have hclean : c.err = none := hrun.clean c (List.mem_of_getElem? hc)
  rcases List.getElem?_eq_some_iff.mp hc with ⟨hlt, hget⟩
  have hpairs : (m.settle H top (c.move fault rest)).children.map Child.pairs =
      children.map Child.pairs := by
    rw [children_settle, List.map_set, Child.pairs_move, ← List.map_set, ← hget,
      List.set_getElem_self]
    exact h.pairs
  cases fault with
  | none =>
      have hnext : Running H (m.settle H top (c.move none rest)) todo := by
        rw [Child.move_of_clean hclean]
        exact hrun.settle hheap hc hrest rfl
      exact hnext.sound hpairs
  | some e =>
      have herr : (c.move (some e) rest).err = some e := by rw [Child.move_of_clean hclean]
      rw [settle_of_err hrun.err herr] at hpairs ⊢
      refine ⟨hpairs, fun e' => ?_, fun _ _ => rfl, fun h => by cases h⟩
      constructor
      · rintro ⟨⟩
        exact ⟨_, List.mem_set hlt _, herr⟩
      · rintro ⟨d, hd, hderr⟩
        rcases List.mem_or_eq_of_mem_set hd with hd | rfl
        · rw [hrun.clean d hd] at hderr
          cases hderr
        · rw [herr] at hderr
          exact hderr

theorem Sound.running_of_valid (h : Sound H children m) (hvalid : m.valid = true) :
    exists p todo, Running H m (p :: todo) := by
  unfold MergingIter.valid at hvalid
  rw [Bool.and_eq_true] at hvalid
  rcases hvalid with ⟨herr, hheap⟩
  rcases h.running (Option.isNone_iff_eq_none.mp herr) with hnil | ⟨todo, hrun⟩
  · rw [hnil] at hheap
    cases hheap
  · cases todo with
    | nil =>
        rw [hrun.heap_of_nil] at hheap
        cases hheap
    | cons p todo => exact ⟨p, todo, hrun⟩

theorem Sound.next (h : Sound H children m) (hvalid : m.valid = true) (faults : Faults ε) :
    exists m', m.next H faults = .ok m' ∧ Sound H children m' := by
  rcases h.running_of_valid hvalid with ⟨p, todo, hrun⟩
  rcases hrun.next_eq faults with ⟨top, heap, c, rest, hheap, hc, hrest, hnext⟩
  exact ⟨_, hnext, h.settle hrun hheap hc hrest (faults top)⟩

theorem sound_new (hclean : forall c, c ∈ children -> c.err = none) :
    Sound H children (newMergingIter children) := by
  refine ⟨rfl, fun e => ?_, fun _ _ => rfl, fun _ => Or.inl rfl⟩
  constructor
  · intro h
    cases h
  · rintro ⟨c, hc, herr⟩
    rw [hclean c hc] at herr
    cases herr

theorem Sound.exec (h : Sound H children m)
    (hf : Positioning children id ∧ forall key, Positioning children (fromKey key))
    {a : Call × Faults ε} (hexec : exec H m a = .ok m') : Sound H children m' := by
  rcases a with ⟨call, faults⟩
  cases call with
  | first =>
      cases hexec
      exact h.reposition hf.left
  | seekGE key =>
      cases hexec
      exact h.reposition (hf.right key)
  | next =>
      have hnext : m.next H faults = .ok m' := hexec
      cases hvalid : m.valid with
      | false =>
          rw [next_of_invalid hvalid] at hnext
          cases hnext
      | true =>
          rcases h.next hvalid faults with ⟨m'', hok, hsound⟩
          rw [hok] at hnext
          cases hnext
          exact hsound

theorem exec_of_err (herr : m.err = some e) {a : Call × Faults ε} (hexec : exec H m a = .ok m') :
    m' = m := by
  rcases a with ⟨call, faults⟩
  cases call with
  | first | seekGE key =>
      cases hexec
      exact reposition_of_err herr
  | next =>
      have hnext : m.next H faults = .ok m' := hexec
      rw [next_of_invalid (invalid_of_err herr)] at hnext
      cases hnext

/-- Two merges that a consumer cannot tell apart: those that have failed with the
same error, and those that are the same. -/
def Alike (m m' : MergingIter ε) : Prop :=
  m.err = m'.err ∧ m.heap = m'.heap ∧ (m.err = none -> m = m')

theorem Sound.alike_reposition (h : Sound H children m) (herr : m.err = none)
    (hclean : forall c, c ∈ children -> c.err = none) (faults : Faults ε)
    (f : List Pair -> List Pair) :
    Alike (m.reposition H faults f) ((newMergingIter children).reposition H faults f) := by
  have hnew : (newMergingIter children).err = none := rfl
  have hcongr : (positionAll faults f 0 m.children).2 = (positionAll faults f 0 children).2 ∧
      ((positionAll faults f 0 m.children).2.2 = none ->
        (positionAll faults f 0 m.children).1 = (positionAll faults f 0 children).1) :=
    positionAll_congr (h.clean herr) hclean h.pairs
  rcases hcongr with ⟨hfound, hchildren⟩
  rw [reposition_eq herr, reposition_eq hnew]
  show Alike (outcome H _) (outcome H (positionAll faults f 0 children))
  cases hend : (positionAll faults f 0 m.children).2.2 with
  | none =>
      have hsame : positionAll faults f 0 m.children = positionAll faults f 0 children :=
        Prod.ext (hchildren hend) hfound
      rw [hsame]
      exact ⟨rfl, rfl, fun _ => rfl⟩
  | some e =>
      unfold outcome
      rw [← hfound, hend]
      exact ⟨rfl, rfl, fun hnone => by cases hnone⟩

/-- A merge of children whose keys ascend and differ, after any calls, with
failures of the children at will.  As long as no child has failed, `First` and
`SeekGE` make it yield the sorted union and what is in it from the key on, and
leave it as they leave a new merge.  The error of a child is that of the merge,
which is then invalid for good. -/
theorem mergingIter_yields_union (H : HeapPackage compareKeys) (children : List (Child ε))
    (hclean : forall c, c ∈ children -> c.err = none)
    (hasc : forall c, c ∈ children -> Ascending Pair.compare c.pairs)
    (hdistinct : DistinctKeys (children.flatMap Child.pairs)) (m : MergingIter ε)
    (hreach : Reach (exec H) (fun _ _ => True) (newMergingIter children) m) :
    (Ascending Pair.compare (union children) ∧
      (union children).Perm (children.flatMap Child.pairs)) ∧
    (m.err = none ->
      Yields H (m.first H noFaults) (union children) ∧
      (forall key, Yields H (m.seekGE H noFaults key) (fromKey key (union children))) ∧
      forall faults,
        Alike (m.first H faults) ((newMergingIter children).first H faults) ∧
          forall key,
            Alike (m.seekGE H faults key) ((newMergingIter children).seekGE H faults key)) ∧
    (forall e, m.err = some e <-> exists c, c ∈ m.children ∧ c.err = some e) ∧
    (forall e, m.err = some e -> forall m', Reach (exec H) (fun _ _ => True) m m' ->
      m'.err = some e ∧ m'.valid = false) ∧
    (m.valid = true -> forall faults, exists m', m.next H faults = .ok m') ∧
    (m.valid = false -> forall faults, m.next H faults = .error .nextOnInvalid) := by
  have hid := positioning_id hasc hdistinct
  have hseek := positioning_fromKey hasc hdistinct
  have hsound : Sound H children m := by
    refine Reach.invariant ?_ hreach (sound_new hclean)
    intro s a s' hs _ hexec
    exact hs.exec ⟨hid, hseek⟩ hexec
  have hfree : forall {f : List Pair -> List Pair}, Positioning children f -> m.err = none ->
      Yields H (m.reposition H noFaults f) (f (union children)) := by
    intro f hf herr
    apply (hsound.running_reposition hf herr ?_).yields
    rw [err_reposition herr]
    exact positionAll_noFaults (hsound.clean herr)
  refine ⟨⟨ascending_union hdistinct, union_perm children⟩, fun herr => ?_, hsound.err_iff,
    fun e herr m' hm' => ?_, fun hvalid faults => ?_, fun hvalid faults => next_of_invalid hvalid⟩
  · exact ⟨hfree hid herr, fun key => hfree (hseek key) herr, fun faults =>
      ⟨hsound.alike_reposition herr hclean faults id,
        fun key => hsound.alike_reposition herr hclean faults (fromKey key)⟩⟩
  · have hsame : m' = m := by
      refine Reach.invariant (I := fun s => s = m) ?_ hm' rfl
      rintro s a s' rfl _ hexec
      exact exec_of_err herr hexec
    rw [hsame]
    exact ⟨herr, invalid_of_err herr⟩
  · rcases hsound.next hvalid faults with ⟨m', hm', -⟩
    exact ⟨m', hm'⟩

def version (user : UInt8) (seq : Nat) (value : Bytes) : Pair where
  key := appendInternalKey [user] seq .put
  value := value

def twoTables : List (Child String) :=
  [{ pairs := [version 1 3 [10], version 3 2 [30]] },
    { pairs := [version 1 5 [11], version 2 4 [20]] }]

theorem mergingIter_yields_union_twoTables :
    Yields (sortedPackage compareKeys)
        (((newMergingIter twoTables).first (sortedPackage compareKeys) noFaults).seekGE
          (sortedPackage compareKeys) noFaults (version 1 4 []).key)
        [version 1 3 [10], version 2 4 [20], version 3 2 [30]] ∧
      ((newMergingIter twoTables).first (sortedPackage compareKeys)
        fun i => if i = 1 then some "corrupt" else none).err = some "corrupt" := by
  have hrun := mergingIter_yields_union (sortedPackage compareKeys) twoTables (by decide)
    (by unfold Ascending; decide +kernel) (by decide +kernel)
    ((newMergingIter twoTables).first (sortedPackage compareKeys) noFaults)
    (Reach.step (a := (Call.first, noFaults)) Reach.start trivial rfl)
  have hseek := (hrun.right.left (by decide +kernel)).right.left (version 1 4 []).key
  have hfrom : fromKey (version 1 4 []).key (union twoTables) =
      [version 1 3 [10], version 2 4 [20], version 3 2 [30]] := by
    decide +kernel
  rw [hfrom] at hseek
  exact ⟨hseek, by decide +kernel⟩

end

end Heaped
end Engine
end Basalt
