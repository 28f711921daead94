import Basalt.Base.InternalKey
import Basalt.Lib.Ascending
import Basalt.Lib.Outcome

/-!
# The merging iterator

Memtables and tables are iterated in the order of their internal keys.  The merge
holds an iterator for each of them and yields the least current pair; a read
that fails makes it invalid for good.

An iterator reads its source where it stands, so the contents of the sources are
an argument of every call: a memtable may have grown since the last one.
-/

namespace Basalt
namespace Engine

open Lib Base Std

structure Pair where
  key : Bytes
  value : Bytes
deriving DecidableEq, Repr

def Pair.compare (p q : Pair) : Ordering :=
  compareKeys p.key q.key

instance : TransCmp Pair.compare where
  eq_swap := fun {p q} => @OrientedCmp.eq_swap Bytes compareKeys _ p.key q.key
  isLE_trans := fun {p q r} => @TransCmp.isLE_trans Bytes compareKeys _ p.key q.key r.key

abbrev Sources := Nat -> List Pair

/-- The reads of a call that fail, by the numbers of the sources. -/
abbrev Faults (ε : Type) := Nat -> Option ε

structure Cursor where
  source : Nat
  pair : Pair
deriving DecidableEq, Repr

/-- A positioning call on one source: the first pair that is asked for. -/
def position {ε : Type} (w : Sources) (faults : Faults ε) (p : Pair -> Bool) (source : Nat) :
    Except ε (Option Cursor) :=
  match faults source with
  | some e => .error e
  | none => .ok (((w source).find? p).map fun x => { source := source, pair := x })

/-- The children are given by their sources.  `heap` holds the valid ones. -/
structure MergingIter (ε : Type) where
  children : List Nat
  heap : List Cursor := []
  err : Option ε := none

namespace MergingIter

variable {ε : Type}

def fail (m : MergingIter ε) (e : ε) : MergingIter ε :=
  { m with heap := [], err := some (m.err.getD e) }

def reposition (m : MergingIter ε) (w : Sources) (faults : Faults ε) (p : Pair -> Bool) :
    MergingIter ε :=
  match m.err with
  | some _ => m
  | none =>
      match m.children.mapM (position w faults p) with
      | .ok cs => { m with heap := cs.reduceOption }
      | .error e => m.fail e

def first (m : MergingIter ε) (w : Sources) (faults : Faults ε) : MergingIter ε :=
  m.reposition w faults fun _ => true

def seekGE (m : MergingIter ε) (w : Sources) (faults : Faults ε) (key : Bytes) :
    MergingIter ε :=
  m.reposition w faults fun x => (compareKeys key x.key).isLE

def least : List Cursor -> Option Cursor
  | [] => none
  | c :: cs =>
      match least cs with
      | none => some c
      | some d => if (d.pair.compare c.pair).isLT then some d else some c

def top (m : MergingIter ε) : Option Cursor :=
  least m.heap

/-- Advances the root; there is none in an invalid merge, and the call panics. -/
def next (m : MergingIter ε) (w : Sources) (faults : Faults ε) : MergingIter ε :=
  match m.top with
  | none => m
  | some c =>
      match position w faults (fun x => (c.pair.compare x).isLT) c.source with
      | .error e => m.fail e
      | .ok c' => { m with heap := c'.toList ++ m.heap.erase c }

/-!
## The root
-/

variable {m : MergingIter ε} {w : Sources} {faults : Faults ε} {c d : Cursor}
  {cs : List Cursor} {p : Pair -> Bool} {e : ε}

theorem least_eq_none : least cs = none <-> cs = [] := by
  cases cs with
  | nil => exact ⟨fun _ => rfl, fun _ => rfl⟩
  | cons c cs =>
      constructor
      · intro h
        unfold least at h
        split at h
        · cases h
        · split at h
          · cases h
          · cases h
      · intro h
        cases h

theorem mem_of_least (h : least cs = some c) : c ∈ cs := by
  induction cs generalizing c with
  | nil => cases h
  | cons a cs ih =>
      unfold least at h
      split at h
      · cases h
        exact List.mem_cons_self
      · next d hd =>
          split at h
          · cases h
            exact List.mem_cons_of_mem a (ih hd)
          · cases h
            exact List.mem_cons_self

theorem isLE_of_least (h : least cs = some c) (hd : d ∈ cs) :
    (c.pair.compare d.pair).isLE = true := by
  induction cs generalizing c with
  | nil => cases hd
  | cons a cs ih =>
      have hself : forall x : Pair, (x.compare x).isLE = true := by
        intro x
        have heq : x.compare x = .eq := cmp_self x
        rw [heq]
        rfl
      unfold least at h
      split at h
      · next hnone =>
          cases h
          rw [least_eq_none.mp hnone] at hd
          rw [List.mem_singleton.mp hd]
          exact hself _
      · next b hb =>
          have hrest := fun hd => ih hb hd
          split at h
          · next hlt =>
              cases h
              rcases List.mem_cons.mp hd with rfl | hd
              · rw [Ordering.isLT_iff_eq_lt.mp hlt]
                rfl
              · exact hrest hd
          · next hlt =>
              cases h
              rcases List.mem_cons.mp hd with rfl | hd
              · exact hself _
              · exact TransCmp.isLE_trans (isLE_of_not_isLT hlt) (hrest hd)

theorem top_eq_none : m.top = none <-> m.heap = [] :=
  least_eq_none

/-!
## What is left to merge
-/

def rest (w : Sources) (c : Cursor) : List Pair :=
  upFrom Pair.compare c.pair (w c.source)

def pending (m : MergingIter ε) (w : Sources) : List Pair :=
  m.heap.flatMap (rest w)

def Placed (m : MergingIter ε) (w : Sources) : Prop :=
  forall c, c ∈ m.heap -> Ascending Pair.compare (w c.source) ∧ c.pair ∈ w c.source

theorem position_eq_ok {source : Nat} {c' : Option Cursor}
    (h : position w faults p source = .ok c') :
    faults source = none ∧
      c' = ((w source).find? p).map fun x => { source := source, pair := x } := by
  unfold position at h
  split at h
  · cases h
  · next hnone =>
      cases h
      exact ⟨hnone, rfl⟩

theorem position_eq_error {source : Nat} (h : position w faults p source = .error e) :
    faults source = some e := by
  unfold position at h
  split at h
  · next hsome =>
      cases h
      exact hsome
  · cases h

theorem rest_position {source : Nat} (hw : Ascending Pair.compare (w source))
    (hp : Upward Pair.compare p) {c' : Option Cursor}
    (h : position w faults p source = .ok c') :
    c'.toList.flatMap (rest w) = (w source).filter p := by
  rw [(position_eq_ok h).right]
  cases hfind : (w source).find? p with
  | none => exact (Ascending.filter_of_find?_none hfind).symm
  | some x =>
      rw [hw.filter_of_find? hp hfind]
      exact List.append_nil _

theorem placed_position {source : Nat} {c' : Option Cursor}
    (h : position w faults p source = .ok c') (hc : c ∈ c'.toList) :
    c.source = source ∧ c.pair ∈ w c.source := by
  rw [(position_eq_ok h).right] at hc
  cases hfind : (w source).find? p with
  | none =>
      rw [hfind] at hc
      cases hc
  | some x =>
      rw [hfind] at hc
      rw [List.mem_singleton.mp hc]
      exact ⟨rfl, List.mem_of_find?_eq_some hfind⟩

theorem pending_next (hplaced : m.Placed w) (htop : m.top = some c)
    (herr : (m.next w faults).err = none) :
    (m.pending w).Perm (c.pair :: (m.next w faults).pending w) := by
  have hmem := mem_of_least htop
  rcases hplaced c hmem with ⟨hw, hpair⟩
  have hrest : rest w c = c.pair :: above Pair.compare c.pair (w c.source) :=
    hw.upFrom_eq_cons hpair
  unfold next at herr ⊢
  rw [htop] at herr ⊢
  dsimp only at herr ⊢
  split at herr
  · next e hpos =>
      cases herr
  · next c' hpos =>
      have hnew : c'.toList.flatMap (rest w) = above Pair.compare c.pair (w c.source) :=
        rest_position hw (upward_isLT c.pair) hpos
      unfold pending
      refine ((List.perm_cons_erase hmem).flatMap_right (rest w)).trans ?_
      rw [List.flatMap_cons, hrest, List.flatMap_append, hnew]
      exact List.Perm.refl _

theorem placed_next (hplaced : m.Placed w) : (m.next w faults).Placed w := by
  unfold next
  split
  · exact hplaced
  · next c htop =>
      split
      · intro d hd
        cases hd
      · next c' hpos =>
          intro d hd
          rcases List.mem_append.mp hd with hd | hd
          · rcases placed_position hpos hd with ⟨hsource, hpair⟩
            refine ⟨?_, hpair⟩
            rw [hsource]
            exact (hplaced c (mem_of_least htop)).left
          · exact hplaced d (List.mem_of_mem_erase hd)

theorem isLE_of_pending (htop : m.top = some c) {x : Pair} (hx : x ∈ m.pending w) :
    (c.pair.compare x).isLE = true := by
  rcases List.mem_flatMap.mp hx with ⟨d, hd, hx⟩
  exact TransCmp.isLE_trans (isLE_of_least htop hd) (List.mem_filter.mp hx).right

theorem mapM_position (hp : Upward Pair.compare p) {ss : List Nat} {os : List (Option Cursor)}
    (hw : forall s, s ∈ ss -> Ascending Pair.compare (w s))
    (h : ss.mapM (position w faults p) = .ok os) :
    os.reduceOption.flatMap (rest w) = ss.flatMap (fun s => (w s).filter p) ∧
      forall c, c ∈ os.reduceOption ->
        Ascending Pair.compare (w c.source) ∧ c.pair ∈ w c.source := by
  induction ss generalizing os with
  | nil =>
      cases h
      exact ⟨rfl, fun _ hc => by cases hc⟩
  | cons s ss ih =>
      rw [List.mapM_cons] at h
      rcases bind_eq_ok.mp h with ⟨o, ho, h⟩
      rcases bind_eq_ok.mp h with ⟨os', hos, h⟩
      cases h
      have hs := hw s List.mem_cons_self
      rcases ih (fun s' hs' => hw s' (List.mem_cons_of_mem s hs')) hos with ⟨hrest, hplaced⟩
      have hcons : (o :: os').reduceOption = o.toList ++ os'.reduceOption := by
        cases o with
        | none | some c => rfl
      rw [hcons]
      constructor
      · rw [List.flatMap_append, List.flatMap_cons, rest_position hs hp ho, hrest]
      · intro c hc
        rcases List.mem_append.mp hc with hc | hc
        · rcases placed_position ho hc with ⟨hsource, hpair⟩
          refine ⟨?_, hpair⟩
          rw [hsource]
          exact hs
        · exact hplaced c hc

theorem mapM_position_error {ss : List Nat} (h : ss.mapM (position w faults p) = .error e) :
    exists s, faults s = some e := by
  induction ss with
  | nil => cases h
  | cons s ss ih =>
      rw [List.mapM_cons] at h
      cases ho : position w faults p s with
      | error e' =>
          rw [ho] at h
          cases h
          exact ⟨s, position_eq_error ho⟩
      | ok o =>
          rw [ho] at h
          cases hos : ss.mapM (position w faults p) with
          | error e' =>
              rw [hos] at h
              cases h
              exact ih hos
          | ok os =>
              rw [hos] at h
              cases h

theorem reposition_spec (hw : forall s, s ∈ m.children -> Ascending Pair.compare (w s))
    (hp : Upward Pair.compare p) (herr : m.err = none) :
    ((m.reposition w faults p).err = none ∧ (m.reposition w faults p).Placed w ∧
      (m.reposition w faults p).pending w = m.children.flatMap fun s => (w s).filter p) ∨
    exists e s, (m.reposition w faults p).err = some e ∧ (m.reposition w faults p).heap = [] ∧
      faults s = some e := by
  unfold reposition
  rw [herr]
  dsimp only
  split
  · next os hos =>
      rcases mapM_position hp hw hos with ⟨hrest, hplaced⟩
      exact Or.inl ⟨rfl, hplaced, hrest⟩
  · next e he =>
      rcases mapM_position_error he with ⟨s, hs⟩
      refine Or.inr ⟨e, s, ?_, rfl, hs⟩
      unfold fail
      rw [herr]
      rfl

/-!
## The loop over a merge
-/

/-- The pairs that a loop over the merge sees, and the merge at its end.  `faults`
are the reads that fail, call by call. -/
def drain (w : Sources) (faults : Nat -> Faults ε) : Nat -> Nat -> MergingIter ε ->
    List Pair × MergingIter ε
  | 0, _, m => ([], m)
  | fuel + 1, t, m =>
      match m.top with
      | none => ([], m)
      | some c =>
          let r := drain w faults fuel (t + 1) (m.next w (faults t))
          (c.pair :: r.1, r.2)

theorem err_next (h : m.err = some e) : (m.next w faults).err = some e := by
  unfold next
  split
  · exact h
  · split
    · unfold fail
      rw [h]
      rfl
    · exact h

theorem err_next_eq_some (herr : m.err = none) (h : (m.next w faults).err = some e) :
    (m.next w faults).heap = [] ∧ exists s, faults s = some e := by
  unfold next at h ⊢
  split at h
  · rw [herr] at h
    cases h
  · next c htop =>
      split at h
      · next e' hpos =>
          unfold fail at h
          rw [herr] at h
          cases h
          exact ⟨rfl, c.source, position_eq_error hpos⟩
      · rw [herr] at h
        cases h

theorem err_drain {faults : Nat -> Faults ε} {fuel t : Nat} (h : m.err = some e) :
    (drain w faults fuel t m).2.err = some e := by
  induction fuel generalizing t m with
  | zero => exact h
  | succ fuel ih =>
      unfold drain
      split
      · exact h
      · exact ih (err_next h)

/-- A loop over a merge that does not fail sees everything, in order.  It fails
only when a read does. -/
theorem drain_spec {faults : Nat -> Faults ε} {fuel t : Nat} (hplaced : m.Placed w)
    (herr : m.err = none) (hfuel : (m.pending w).length ≤ fuel) :
    ((drain w faults fuel t m).2.err = none ∧
      (drain w faults fuel t m).1.Perm (m.pending w) ∧
      (drain w faults fuel t m).1.Pairwise fun x y => (x.compare y).isLE = true) ∨
    exists e i s, (drain w faults fuel t m).2.err = some e ∧ faults i s = some e := by
  induction fuel generalizing t m with
  | zero =>
      have hnil := List.eq_nil_of_length_eq_zero (Nat.le_zero.mp hfuel)
      refine Or.inl ⟨herr, ?_, List.Pairwise.nil⟩
      rw [hnil]
      exact List.Perm.refl _
  | succ fuel ih =>
      unfold drain
      split
      · next htop =>
          refine Or.inl ⟨herr, ?_, List.Pairwise.nil⟩
          unfold pending
          rw [top_eq_none.mp htop]
          exact List.Perm.refl _
      · next c htop =>
          cases hnext : (m.next w (faults t)).err with
          | some e =>
              rcases (err_next_eq_some herr hnext).right with ⟨s, hs⟩
              exact Or.inr ⟨e, t, s, err_drain hnext, hs⟩
          | none =>
              have hperm := pending_next hplaced htop hnext
              have hlength := hperm.length_eq
              rw [List.length_cons] at hlength
              rcases ih (t := t + 1) (placed_next hplaced) hnext (by lia) with
                ⟨hdone, hall, hsorted⟩ | hfail
              · refine Or.inl ⟨hdone, (hall.cons c.pair).trans hperm.symm, ?_⟩
                refine List.pairwise_cons.mpr ⟨fun x hx => ?_, hsorted⟩
                apply isLE_of_pending htop
                exact hperm.symm.subset (List.mem_cons_of_mem _ (hall.subset hx))
              · exact Or.inr hfail

end MergingIter

end Engine
end Basalt
