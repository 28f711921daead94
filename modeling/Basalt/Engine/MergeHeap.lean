import Basalt.Lib.HeapPackage
import Basalt.Lib.Run
import Basalt.Engine.Merge

/-!
# The merge with its heap

The merging iterator as it is written: the children are iterators that move,
and the heap holds the numbers of those that are valid, ordered by the keys the
children stand on.  Of the heap package only its promises are used.

A child is an iterator over a list of pairs.  Every call on it can fail; a child
that has failed stays as it is.
-/

namespace Basalt
namespace Engine
namespace Heaped

open Lib Base Std

/-- The panics of the merge and of a child whose `Next` is called out of turn. -/
inductive IterPanic where
  | nextOnInvalid
  | childNextOnInvalid
deriving DecidableEq, Repr

def IterPanic.message : IterPanic -> String
  | nextOnInvalid => "basalt: Next on invalid merging iterator"
  | childNextOnInvalid => "sstable: Next on invalid iterator"

/-- An iterator over `pairs`; `rest` starts with the pair it stands on. -/
structure Child (ε : Type) where
  pairs : List Pair
  rest : List Pair := []
  err : Option ε := none
deriving DecidableEq

namespace Child

variable {ε : Type}

def move (c : Child ε) (fault : Option ε) (rest : List Pair) : Child ε :=
  if c.err.isSome then c
  else { c with rest := if fault.isSome then [] else rest, err := fault }

def valid (c : Child ε) : Bool :=
  c.err.isNone && !c.rest.isEmpty

def next (c : Child ε) (fault : Option ε) : Except IterPanic (Child ε) :=
  if c.valid then .ok (c.move fault c.rest.tail) else .error .childNextOnInvalid

end Child

structure MergingIter (ε : Type) where
  children : List (Child ε)
  heap : List Nat := []
  err : Option ε := none

def pairOf {ε : Type} (children : List (Child ε)) (i : Nat) : Option Pair :=
  children[i]?.bind fun c => c.rest.head?

def keyOf {ε : Type} (children : List (Child ε)) (i : Nat) : Bytes :=
  (pairOf children i).elim [] Pair.key

def newMergingIter {ε : Type} (children : List (Child ε)) : MergingIter ε where
  children := children

/-- The loop of `reposition` from child `i` on: the children, the numbers of the
valid ones, and the error that ended it. -/
def positionAll {ε : Type} (faults : Faults ε) (f : List Pair -> List Pair) :
    Nat -> List (Child ε) -> List (Child ε) × List Nat × Option ε
  | _, [] => ([], [], none)
  | i, c :: cs =>
      let c := c.move (faults i) (f c.pairs)
      if c.err.isSome then (c :: cs, [], c.err)
      else
        let r := positionAll faults f (i + 1) cs
        (c :: r.1, if c.valid then i :: r.2.1 else r.2.1, r.2.2)

def fromKey (key : Bytes) (pairs : List Pair) : List Pair :=
  pairs.dropWhile fun p => (compareKeys p.key key).isLT

namespace MergingIter

variable {ε : Type} (H : HeapPackage compareKeys)

def fail (m : MergingIter ε) (e : ε) : MergingIter ε :=
  { m with heap := [], err := some (m.err.getD e) }

def reposition (m : MergingIter ε) (faults : Faults ε) (f : List Pair -> List Pair) :
    MergingIter ε :=
  if m.err.isSome then m
  else
    let r := positionAll faults f 0 m.children
    r.2.2.elim { m with children := r.1, heap := H.init (keyOf r.1) r.2.1 }
      fun e => { m with children := r.1 }.fail e

def first (m : MergingIter ε) (faults : Faults ε) : MergingIter ε :=
  m.reposition H faults id

def seekGE (m : MergingIter ε) (faults : Faults ε) (key : Bytes) : MergingIter ε :=
  m.reposition H faults (fromKey key)

def valid (m : MergingIter ε) : Bool :=
  m.err.isNone && !m.heap.isEmpty

def current (m : MergingIter ε) : Option Pair :=
  m.heap.head?.bind (pairOf m.children)

def settle (m : MergingIter ε) (top : Nat) (c : Child ε) : MergingIter ε :=
  let children := m.children.set top c
  c.err.elim
    { m with
      children := children
      heap := if c.valid then H.fix (keyOf children) m.heap else H.pop (keyOf children) m.heap }
    fun e => { m with children := children }.fail e

def next (m : MergingIter ε) (faults : Faults ε) : Except IterPanic (MergingIter ε) :=
  if m.valid then do
    let top := m.heap.headD 0
    let c <- m.children[top]?.elim (.error .childNextOnInvalid) fun c => c.next (faults top)
    return m.settle H top c
  else .error .nextOnInvalid

end MergingIter

inductive Call where
  | first
  | seekGE (key : Bytes)
  | next
deriving DecidableEq, Repr

/-- A call, and the calls on the children that fail in it. -/
def exec {ε : Type} (H : HeapPackage compareKeys) (m : MergingIter ε)
    (a : Call × Faults ε) : Except IterPanic (MergingIter ε) :=
  match a.1 with
  | .first => .ok (m.first H a.2)
  | .seekGE key => .ok (m.seekGE H a.2 key)
  | .next => m.next H a.2

/-!
## Children
-/

section

variable {ε : Type} {c : Child ε} {cs : List (Child ε)} {fault : Option ε} {rest : List Pair}
  {faults : Faults ε} {f : List Pair -> List Pair} {i : Nat}

@[simp]
theorem Child.pairs_move : (c.move fault rest).pairs = c.pairs := by
  unfold Child.move
  split
  · rfl
  · rfl

theorem Child.move_of_clean (h : c.err = none) :
    c.move fault rest =
      { pairs := c.pairs, rest := if fault.isSome then [] else rest, err := fault } := by
  unfold Child.move
  rw [h]
  rfl

def positioned (f : List Pair -> List Pair) (c : Child ε) : Child ε :=
  { pairs := c.pairs, rest := f c.pairs }

theorem positionAll_fail {e : ε} (hclean : c.err = none) (hfault : faults i = some e) :
    positionAll faults f i (c :: cs) =
      ({ pairs := c.pairs, rest := [], err := some e } :: cs, [], some e) := by
  rw [positionAll, Child.move_of_clean hclean, hfault]
  rfl

theorem positionAll_step (hclean : c.err = none) (hfault : faults i = none) :
    positionAll faults f i (c :: cs) =
      (positioned f c :: (positionAll faults f (i + 1) cs).1,
        if (positioned f c).valid then i :: (positionAll faults f (i + 1) cs).2.1
          else (positionAll faults f (i + 1) cs).2.1,
        (positionAll faults f (i + 1) cs).2.2) := by
  rw [positionAll, Child.move_of_clean hclean, hfault]
  rfl

theorem pairs_positionAll :
    (positionAll faults f i cs).1.map Child.pairs = cs.map Child.pairs := by
  induction cs generalizing i with
  | nil => rfl
  | cons c cs ih =>
      rw [positionAll]
      split
      · simp
      · simp [ih]

theorem positionAll_congr {cs' : List (Child ε)} (hclean : forall c, c ∈ cs -> c.err = none)
    (hclean' : forall c, c ∈ cs' -> c.err = none)
    (hpairs : cs.map Child.pairs = cs'.map Child.pairs) :
    (positionAll faults f i cs).2 = (positionAll faults f i cs').2 ∧
      ((positionAll faults f i cs).2.2 = none ->
        (positionAll faults f i cs).1 = (positionAll faults f i cs').1) := by
  induction cs generalizing i cs' with
  | nil =>
      cases cs' with
      | nil => exact ⟨rfl, fun _ => rfl⟩
      | cons c' cs' => cases hpairs
  | cons c cs ih =>
      cases cs' with
      | nil => cases hpairs
      | cons c' cs' =>
          rcases List.forall_mem_cons.mp hclean with ⟨hc, hcs⟩
          rcases List.forall_mem_cons.mp hclean' with ⟨hc', hcs'⟩
          rcases List.cons.inj hpairs with ⟨hhead, htail⟩
          cases hfault : faults i with
          | some e =>
              rw [positionAll_fail hc hfault, positionAll_fail hc' hfault]
              exact ⟨rfl, fun h => by cases h⟩
          | none =>
              have hpos : positioned f c = positioned f c' := by
                unfold positioned
                rw [hhead]
              rcases @ih (i + 1) cs' hcs hcs' htail with ⟨hfound, hchildren⟩
              rw [positionAll_step hc hfault, positionAll_step hc' hfault, hpos, hfound]
              exact ⟨rfl, fun h => by rw [hchildren (by rw [hfound]; exact h)]⟩

theorem err_positionAll (hclean : forall c, c ∈ cs -> c.err = none) (e : ε) :
    (positionAll faults f i cs).2.2 = some e <->
      exists c, c ∈ (positionAll faults f i cs).1 ∧ c.err = some e := by
  induction cs generalizing i with
  | nil => simp [positionAll]
  | cons c cs ih =>
      rcases List.forall_mem_cons.mp hclean with ⟨hc, hcs⟩
      cases hfault : faults i with
      | some e' =>
          rw [positionAll_fail hc hfault]
          simp only [List.mem_cons, exists_eq_or_imp]
          constructor
          · exact Or.inl
          · rintro (h | ⟨d, hd, herr⟩)
            · exact h
            · rw [hcs d hd] at herr
              cases herr
      | none =>
          rw [positionAll_step hc hfault]
          simp only [List.mem_cons, exists_eq_or_imp]
          rw [ih hcs]
          constructor
          · exact Or.inr
          · rintro (h | h)
            · cases h
            · exact h

theorem pairOf_positioned (k : Nat) :
    (pairOf ((c :: cs).map (positioned f)) k).isSome =
      if k = 0 then (positioned f c).valid
      else (pairOf (cs.map (positioned f)) (k - 1)).isSome := by
  cases k with
  | zero =>
      show (f c.pairs).head?.isSome = !(f c.pairs).isEmpty
      cases f c.pairs with
      | nil | cons p ps => rfl
  | succ k => rfl

/-- Without a failure every child is positioned, and those that are valid are
found in their order. -/
theorem positionAll_spec (hclean : forall c, c ∈ cs -> c.err = none)
    (hnone : (positionAll faults f i cs).2.2 = none) :
    (positionAll faults f i cs).1 = cs.map (positioned f) ∧
      (positionAll faults f i cs).2.1.Pairwise (· < ·) ∧
      forall j, j ∈ (positionAll faults f i cs).2.1 <->
        i ≤ j ∧ (pairOf (cs.map (positioned f)) (j - i)).isSome = true := by
  induction cs generalizing i with
  | nil => simp [positionAll, pairOf]
  | cons c cs ih =>
      rcases List.forall_mem_cons.mp hclean with ⟨hc, hcs⟩
      cases hfault : faults i with
      | some e =>
          rw [positionAll_fail hc hfault] at hnone
          cases hnone
      | none =>
          rw [positionAll_step hc hfault] at hnone ⊢
          rcases @ih (i + 1) hcs hnone with ⟨hchildren, hsorted, hfound⟩
          have hafter : forall j, j ∈ (positionAll faults f (i + 1) cs).2.1 -> i < j :=
            fun j hj => ((hfound j).mp hj).left
          refine ⟨by rw [hchildren]; rfl, ?_, fun j => ?_⟩
          · dsimp only
            split
            · exact List.pairwise_cons.mpr ⟨hafter, hsorted⟩
            · exact hsorted
          · have hmem : j ∈ (if (positioned f c).valid = true
                then i :: (positionAll faults f (i + 1) cs).2.1
                else (positionAll faults f (i + 1) cs).2.1) <->
                j = i ∧ (positioned f c).valid = true ∨
                  j ∈ (positionAll faults f (i + 1) cs).2.1 := by
              split
              · next hvalid => simp [hvalid]
              · next hvalid => simp [hvalid]
            have hsub : j - i - 1 = j - (i + 1) := by lia
            rw [hmem, hfound, pairOf_positioned, hsub]
            by_cases hj : j = i
            · simp [hj]
            · simp only [hj, false_and, false_or]
              split
              · lia
              · lia

end

/-!
## A merge that runs

`todo` is what the merge still yields: the rests of all children in their order.
-/

section

variable {ε : Type} {H : HeapPackage compareKeys} {m : MergingIter ε} {c : Child ε}
  {children : List (Child ε)} {i top : Nat} {p : Pair} {todo : List Pair} {faults : Faults ε}

structure Running (H : HeapPackage compareKeys) (m : MergingIter ε) (todo : List Pair) :
    Prop where
  err : m.err = none
  clean : forall c, c ∈ m.children -> c.err = none
  rests : forall c, c ∈ m.children -> Ascending Pair.compare c.rest
  isHeap : H.IsHeap (keyOf m.children) m.heap
  nodup : m.heap.Nodup
  mem : forall i, i ∈ m.heap <-> (pairOf m.children i).isSome = true
  perm : todo.Perm (m.children.flatMap Child.rest)
  ascending : Ascending Pair.compare todo

theorem pairOf_eq_some :
    pairOf children i = some p <->
      exists c rest, children[i]? = some c ∧ c.rest = p :: rest := by
  unfold pairOf
  rw [Option.bind_eq_some_iff]
  constructor
  · rintro ⟨c, hc, hp⟩
    rcases List.head?_eq_some_iff.mp hp with ⟨rest, hrest⟩
    exact ⟨c, rest, hc, hrest⟩
  · rintro ⟨c, rest, hc, hrest⟩
    exact ⟨c, hc, by rw [hrest]; rfl⟩

theorem keyOf_of_pairOf (h : pairOf children i = some p) : keyOf children i = p.key := by
  unfold keyOf
  rw [h]
  rfl

theorem Running.root_le (h : Running H m todo) {heap : List Nat}
    (hheap : m.heap = top :: heap) (hp : pairOf m.children top = some p) {q : Pair}
    (hq : q ∈ todo) : (p.compare q).isLE = true := by
  rcases List.mem_flatMap.mp (h.perm.mem_iff.mp hq) with ⟨c, hc, hqc⟩
  rcases List.mem_iff_getElem?.mp hc with ⟨i, hi⟩
  have hasc := h.rests c hc
  cases hrest : c.rest with
  | nil =>
      rw [hrest] at hqc
      cases hqc
  | cons r rest =>
      have hr : pairOf m.children i = some r := pairOf_eq_some.mpr ⟨c, rest, hi, hrest⟩
      have hmem : i ∈ top :: heap := by
        rw [← hheap, h.mem, hr]
        rfl
      have hroot : (p.compare r).isLE = true := by
        rcases List.mem_cons.mp hmem with rfl | hmem
        · rw [hp] at hr
          cases hr
          have hself : p.compare p = .eq := cmp_self p
          rw [hself]
          rfl
        · have hisHeap := h.isHeap
          rw [hheap] at hisHeap
          have hnot := H.root_le hisHeap hmem
          rw [keyOf_of_pairOf hr, keyOf_of_pairOf hp] at hnot
          exact isLE_of_not_isLT (fun hlt => hnot (Ordering.isLT_iff_eq_lt.mp hlt))
      rw [hrest] at hqc hasc
      rcases List.mem_cons.mp hqc with rfl | hqc
      · exact hroot
      · have hlt : r.compare q = .lt := (List.pairwise_cons.mp hasc).left q hqc
        exact TransCmp.isLE_trans hroot (by rw [hlt]; rfl)

theorem Running.mem_todo (h : Running H m todo) (hp : pairOf m.children i = some p) :
    p ∈ todo := by
  rcases pairOf_eq_some.mp hp with ⟨c, rest, hc, hrest⟩
  rw [h.perm.mem_iff]
  apply List.mem_flatMap_of_mem (List.mem_of_getElem? hc)
  rw [hrest]
  exact List.mem_cons_self

theorem Running.heap_of_nil (h : Running H m []) : m.heap = [] := by
  apply List.eq_nil_iff_forall_not_mem.mpr
  intro i hi
  rcases Option.isSome_iff_exists.mp ((h.mem i).mp hi) with ⟨p, hp⟩
  cases h.mem_todo hp

theorem Running.root (h : Running H m (p :: todo)) :
    exists top heap c rest, m.heap = top :: heap ∧ m.children[top]? = some c ∧
      c.rest = p :: rest := by
  rcases List.mem_flatMap.mp (h.perm.mem_iff.mp List.mem_cons_self) with ⟨d, hd, hpd⟩
  rcases List.mem_iff_getElem?.mp hd with ⟨i, hi⟩
  have hmem : i ∈ m.heap := by
    rw [h.mem]
    unfold pairOf
    rw [hi]
    cases hrest : d.rest with
    | nil =>
        rw [hrest] at hpd
        cases hpd
    | cons r rest => exact (congrArg (fun l => Option.isSome (List.head? l)) hrest)
  cases hheap : m.heap with
  | nil =>
      rw [hheap] at hmem
      cases hmem
  | cons top heap =>
      have htop : (pairOf m.children top).isSome = true := by
        rw [← h.mem, hheap]
        exact List.mem_cons_self
      rcases Option.isSome_iff_exists.mp htop with ⟨q, hq⟩
      rcases pairOf_eq_some.mp hq with ⟨c, rest, hc, hrest⟩
      have hle : (q.compare p).isLE = true := h.root_le hheap hq List.mem_cons_self
      have hqmem : q ∈ p :: todo := h.mem_todo hq
      have hqp : q = p := by
        rcases List.mem_cons.mp hqmem with rfl | hqmem
        · rfl
        · have hlt : p.compare q = .lt := (List.pairwise_cons.mp h.ascending).left q hqmem
          have hgt : q.compare p = .gt := cmp_eq_gt hlt
          rw [hgt] at hle
          cases hle
      exact ⟨top, heap, c, rest, rfl, hc, by rw [hrest, hqp]⟩

theorem Running.valid_of_cons (h : Running H m (p :: todo)) : m.valid = true := by
  rcases h.root with ⟨top, heap, c, rest, hheap, -, -⟩
  unfold MergingIter.valid
  rw [h.err, hheap]
  rfl

theorem Running.current_of_cons (h : Running H m (p :: todo)) : m.current = some p := by
  rcases h.root with ⟨top, heap, c, rest, hheap, hc, hrest⟩
  unfold MergingIter.current
  rw [hheap]
  exact pairOf_eq_some.mpr ⟨c, rest, hc, hrest⟩

theorem Running.next_eq (h : Running H m (p :: todo)) (faults : Faults ε) :
    exists top heap c rest, m.heap = top :: heap ∧ m.children[top]? = some c ∧
      c.rest = p :: rest ∧ m.next H faults = .ok (m.settle H top (c.move (faults top) rest)) := by
  rcases h.root with ⟨top, heap, c, rest, hheap, hc, hrest⟩
  have hvalid : c.valid = true := by
    unfold Child.valid
    rw [h.clean c (List.mem_of_getElem? hc), hrest]
    rfl
  refine ⟨top, heap, c, rest, hheap, hc, hrest, ?_⟩
  unfold MergingIter.next
  rw [if_pos h.valid_of_cons, hheap]
  dsimp only [List.headD_cons]
  rw [hc]
  dsimp only [Option.elim_some]
  unfold Child.next
  rw [if_pos hvalid, hrest]
  rfl

theorem flatMap_set_perm {α β : Type} {l : List α} {g : α -> List β} {a a' : α} {b : β} {k : Nat}
    (ha : l[k]? = some a) (hg : g a = b :: g a') :
    (l.flatMap g).Perm (b :: (l.set k a').flatMap g) := by
  induction l generalizing k with
  | nil => cases ha
  | cons x l ih =>
      cases k with
      | zero =>
          obtain rfl : x = a := Option.some.inj ha
          rw [List.set_cons_zero, List.flatMap_cons, List.flatMap_cons, hg]
          exact List.Perm.refl _
      | succ k =>
          rw [List.set_cons_succ, List.flatMap_cons, List.flatMap_cons]
          exact ((ih ha).append_left (g x)).trans List.perm_middle

theorem pairOf_set (htop : top < children.length) :
    pairOf (children.set top c) i = if i = top then c.rest.head? else pairOf children i := by
  unfold pairOf
  rw [List.getElem?_set]
  split
  · next h =>
      subst h
      rw [if_pos rfl]
      rfl
  · next h => rw [if_neg (Ne.symm h)]

/-- What is left of the heap when the child at its root has moved: the others
have kept their keys. -/
structure Moved (H : HeapPackage compareKeys) (children children' : List (Child ε)) (top : Nat)
    (heap : List Nat) : Prop where
  isHeap : H.IsHeap (keyOf children) (top :: heap)
  same : forall y, y ∈ heap -> keyOf children' y = keyOf children y
  not_mem : ¬ top ∈ heap
  nodup : heap.Nodup
  others : forall y, y ∈ heap <-> y ≠ top ∧ (pairOf children' y).isSome = true

theorem Running.moved (h : Running H m todo) {heap : List Nat} (hheap : m.heap = top :: heap)
    (htop : top < m.children.length) (c' : Child ε) :
    Moved H m.children (m.children.set top c') top heap := by
  have hmem := h.mem
  have hheaped := h.isHeap
  have hnodup := h.nodup
  rw [hheap] at hmem hheaped hnodup
  rcases List.nodup_cons.mp hnodup with ⟨hnot, htail⟩
  have hne : forall y, y ∈ heap -> y ≠ top := fun y hy heq => hnot (heq ▸ hy)
  have hkept : forall y, y ≠ top -> pairOf (m.children.set top c') y = pairOf m.children y := by
    intro y hy
    rw [pairOf_set htop, if_neg hy]
  refine ⟨hheaped, ?_, hnot, htail, ?_⟩
  · intro y hy
    unfold keyOf
    rw [hkept y (hne y hy)]
  · intro y
    constructor
    · intro hy
      rw [hkept y (hne y hy), ← hmem]
      exact ⟨hne y hy, List.mem_cons_of_mem top hy⟩
    · rintro ⟨hy, hsome⟩
      rw [hkept y hy, ← hmem] at hsome
      exact (List.mem_cons.mp hsome).resolve_left hy

theorem Moved.settled {heap : List Nat} {c' : Child ε}
    (h : Moved H m.children (m.children.set top c') top heap) (hheap : m.heap = top :: heap)
    (hroot : pairOf (m.children.set top c') top = c'.rest.head?) (hclean : c'.err = none) :
    exists heap', H.IsHeap (keyOf (m.children.set top c')) heap' ∧ heap'.Nodup ∧
      (forall i, i ∈ heap' <-> (pairOf (m.children.set top c') i).isSome = true) ∧
      m.settle H top c' = { m with children := m.children.set top c', heap := heap' } := by
  unfold MergingIter.settle
  rw [hclean, hheap]
  dsimp only [Option.elim_none]
  cases hnext : c'.rest with
  | nil =>
      have hinvalid : ¬ c'.valid = true := by
        unfold Child.valid
        rw [hnext]
        simp
      have hpop := H.pop_perm h.isHeap h.same
      refine ⟨_, H.pop_heap h.isHeap h.same, hpop.nodup_iff.mpr h.nodup, fun i => ?_,
        by rw [if_neg hinvalid]⟩
      rw [hpop.mem_iff, h.others]
      constructor
      · exact And.right
      · intro hsome
        refine ⟨?_, hsome⟩
        rintro rfl
        rw [hroot, hnext] at hsome
        cases hsome
  | cons q rest =>
      have hvalid : c'.valid = true := by
        unfold Child.valid
        rw [hnext, hclean]
        rfl
      have hfix := H.fix_perm h.isHeap h.same
      refine ⟨_, H.fix_heap h.isHeap h.same,
        hfix.nodup_iff.mpr (List.nodup_cons.mpr ⟨h.not_mem, h.nodup⟩), fun i => ?_,
        by rw [if_pos hvalid]⟩
      rw [hfix.mem_iff, List.mem_cons, h.others]
      constructor
      · rintro (rfl | ⟨-, hsome⟩)
        · rw [hroot, hnext]
          rfl
        · exact hsome
      · intro hsome
        by_cases hi : i = top
        · exact Or.inl hi
        · exact Or.inr ⟨hi, hsome⟩

theorem Running.settle (h : Running H m (p :: todo)) {heap : List Nat} {c' : Child ε}
    (hheap : m.heap = top :: heap) (hc : m.children[top]? = some c)
    (hrest : c.rest = p :: c'.rest) (hclean : c'.err = none) :
    Running H (m.settle H top c') todo := by
  have hlt : top < m.children.length := (List.getElem?_eq_some_iff.mp hc).choose
  have hasc := h.rests c (List.mem_of_getElem? hc)
  rw [hrest] at hasc
  have hroot : pairOf (m.children.set top c') top = c'.rest.head? := by
    rw [pairOf_set hlt, if_pos rfl]
  have hperm : todo.Perm ((m.children.set top c').flatMap Child.rest) :=
    (h.perm.trans (flatMap_set_perm hc hrest)).cons_inv
  rcases (h.moved hheap hlt c').settled hheap hroot hclean with
    ⟨heap', hisHeap, hnodup, hmem, heq⟩
  rw [heq]
  refine ⟨h.err, ?_, ?_, hisHeap, hnodup, hmem, hperm, (List.pairwise_cons.mp h.ascending).right⟩
  · intro d hd
    rcases List.mem_or_eq_of_mem_set hd with hd | rfl
    · exact h.clean d hd
    · exact hclean
  · intro d hd
    rcases List.mem_or_eq_of_mem_set hd with hd | rfl
    · exact h.rests d hd
    · exact (List.pairwise_cons.mp hasc).right

/-!
## Positioning
-/

variable {f : List Pair -> List Pair}

theorem reposition_of_err {e : ε} (h : m.err = some e) : m.reposition H faults f = m := by
  unfold MergingIter.reposition
  rw [h]
  rfl

def outcome (H : HeapPackage compareKeys) (r : List (Child ε) × List Nat × Option ε) :
    MergingIter ε :=
  r.2.2.elim { children := r.1, heap := H.init (keyOf r.1) r.2.1 }
    fun e => { children := r.1, err := some e }

theorem reposition_eq (h : m.err = none) :
    m.reposition H faults f = outcome H (positionAll faults f 0 m.children) := by
  rcases m with ⟨children, heap, err⟩
  obtain rfl : err = none := h
  rfl

theorem err_reposition (h : m.err = none) :
    (m.reposition H faults f).err = (positionAll faults f 0 m.children).2.2 := by
  rw [reposition_eq h]
  unfold outcome
  cases (positionAll faults f 0 m.children).2.2 with
  | none | some e => rfl

theorem children_reposition (h : m.err = none) :
    (m.reposition H faults f).children = (positionAll faults f 0 m.children).1 := by
  rw [reposition_eq h]
  unfold outcome
  cases (positionAll faults f 0 m.children).2.2 with
  | none | some e => rfl

theorem running_reposition (herr : m.err = none)
    (hclean : forall c, c ∈ m.children -> c.err = none)
    (hasc : forall c, c ∈ m.children -> Ascending Pair.compare (f c.pairs))
    (hperm : todo.Perm (m.children.flatMap fun c => f c.pairs))
    (htodo : Ascending Pair.compare todo) (hnone : (m.reposition H faults f).err = none) :
    Running H (m.reposition H faults f) todo := by
  rw [err_reposition herr] at hnone
  rcases positionAll_spec hclean hnone with ⟨hchildren, hsorted, hfound⟩
  have hinit := H.init_perm (keyOf (m.children.map (positioned f)))
    (positionAll faults f 0 m.children).2.1
  have hpositioned : forall d, d ∈ m.children.map (positioned f) ->
      d.err = none ∧ Ascending Pair.compare d.rest := by
    intro d hd
    rcases List.mem_map.mp hd with ⟨c, hc, rfl⟩
    exact ⟨rfl, hasc c hc⟩
  rw [reposition_eq herr]
  unfold outcome
  rw [hnone, hchildren]
  refine ⟨rfl, fun d hd => (hpositioned d hd).left, fun d hd => (hpositioned d hd).right,
    H.init_heap _ _, hinit.nodup_iff.mpr (hsorted.imp Nat.ne_of_lt), fun i => ?_, ?_, htodo⟩
  · show i ∈ H.init _ _ <-> _
    rw [hinit.mem_iff, hfound]
    simp
  · show todo.Perm ((m.children.map (positioned f)).flatMap Child.rest)
    rw [List.flatMap_map]
    exact hperm

end

end Heaped
end Engine
end Basalt
