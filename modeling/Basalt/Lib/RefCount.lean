import Mathlib.Data.List.Count
import Mathlib.Data.List.Perm.Basic

/-!
# Reference counts

A pool of objects, each with the number of its references.  A list of owners,
with one entry for every reference, tells what the counts should be: an object is
closed with its last reference, and neither earlier nor twice.
-/

namespace Basalt
namespace Lib

structure Cell (α : Type) where
  val : α
  refs : Int := 1
  closed : Bool := false
deriving DecidableEq, Repr

abbrev Pool (α : Type) := List (Cell α)

theorem split_at {α : Type} {l : List α} {j : Nat} {x : α} (h : l[j]? = some x) :
    exists a b, l = a ++ x :: b ∧ l.eraseIdx j = a ++ b ∧
      forall y, l.set j y = a ++ y :: b := by
  rcases List.getElem?_eq_some_iff.mp h with ⟨hlt, rfl⟩
  refine ⟨l.take j, l.drop (j + 1), ?_, ?_, ?_⟩
  · rw [List.getElem_cons_drop, List.take_append_drop]
  · exact List.eraseIdx_eq_take_drop_succ l j
  · intro y
    exact List.set_eq_take_append_cons_drop.trans (if_pos hlt)

namespace Pool

variable {α : Type}

def ref (p : Pool α) (i : Nat) : Pool α :=
  p.modify i fun c => { c with refs := c.refs + 1 }

/-- A released cell: the object is closed when its count becomes zero. -/
def dropCell (c : Cell α) : Cell α :=
  { c with refs := c.refs - 1, closed := c.closed || decide (c.refs - 1 = 0) }

/-- Drops a reference, and tells whether it was the last one; a count below zero
is the error. -/
def unref (p : Pool α) (i : Nat) : Option (Pool α × Bool) :=
  (p[i]?).bind fun c =>
    if c.refs - 1 < 0 then none
    else some (p.modify i dropCell, decide (c.refs - 1 = 0))

def vals (p : Pool α) : List α :=
  p.map Cell.val

def live (p : Pool α) : List α :=
  (p.filter fun c => !c.closed).map Cell.val

/-- Every count is the number of the object's owners, and an object is closed
exactly when it has none. -/
structure Counted (p : Pool α) (owners : List Nat) : Prop where
  bound : forall i, i ∈ owners -> i < p.length
  count : forall i c, p[i]? = some c -> c.refs = (owners.count i : Int)
  closed : forall i c, p[i]? = some c -> (c.closed = true <-> i ∉ owners)

variable {p : Pool α} {owners owners' : List Nat} {i : Nat}

theorem counted_nil : Counted ([] : Pool α) [] where
  bound := fun i hi => (by cases hi)
  count := fun i c hc => (by cases hc)
  closed := fun i c hc => (by cases hc)

theorem Counted.of_count (h : Counted p owners)
    (hcount : forall i, owners'.count i = owners.count i) : Counted p owners' := by
  have hmem : forall i, i ∈ owners' <-> i ∈ owners := by
    intro i
    rw [← List.count_pos_iff, ← List.count_pos_iff, hcount]
  constructor
  · intro i hi
    exact h.bound i ((hmem i).mp hi)
  · intro i c hc
    rw [hcount]
    exact h.count i c hc
  · intro i c hc
    rw [hmem]
    exact h.closed i c hc

@[simp]
theorem length_ref : (p.ref i).length = p.length := by
  simp [ref]

theorem vals_modify {f : Cell α -> Cell α} (hf : forall c, (f c).val = c.val) :
    vals (p.modify i f) = p.vals := by
  unfold vals
  apply List.ext_getElem?
  intro j
  rw [List.getElem?_map, List.getElem?_map, List.getElem?_modify]
  cases p[j]? with
  | none => rfl
  | some c =>
      by_cases hij : i = j
      · simp [hij, hf]
      · simp [hij]

@[simp]
theorem vals_ref : (p.ref i).vals = p.vals :=
  vals_modify fun _ => rfl

@[simp]
theorem vals_drop : vals (p.modify i dropCell) = p.vals :=
  vals_modify fun _ => rfl

@[simp]
theorem live_ref : (p.ref i).live = p.live := by
  unfold ref live
  induction p generalizing i with
  | nil => simp
  | cons c p ih =>
      cases i with
      | zero =>
          rw [List.modify_zero_cons]
          cases hc : c.closed with
          | true | false => simp [hc]
      | succ i =>
          rw [List.modify_succ_cons, List.filter_cons, List.filter_cons]
          split
          · rw [List.map_cons, List.map_cons, ih]
          · exact ih

@[simp]
theorem live_new (val : α) : live (p ++ [{ val := val }]) = p.live ++ [val] := by
  simp [live]

@[simp]
theorem vals_new (c : Cell α) : vals (p ++ [c]) = p.vals ++ [c.val] := by
  simp [vals]

theorem length_vals : p.vals.length = p.length :=
  List.length_map _

theorem Counted.new (h : Counted p owners) (val : α) :
    Counted (p ++ [{ val := val }]) (p.length :: owners) := by
  have hfresh : p.length ∉ owners := fun hmem => Nat.lt_irrefl _ (h.bound _ hmem)
  have hcases : forall i c, (p ++ [({ val := val } : Cell α)])[i]? = some c ->
      (i ≠ p.length ∧ p[i]? = some c) ∨ (i = p.length ∧ c = { val := val }) := by
    intro i c hc
    rcases Nat.lt_or_ge i p.length with hlt | hge
    · rw [List.getElem?_append_left hlt] at hc
      exact Or.inl ⟨Nat.ne_of_lt hlt, hc⟩
    · rw [List.getElem?_append_right hge] at hc
      rcases List.getElem?_eq_some_iff.mp hc with ⟨hbound, heq⟩
      have hzero : i - p.length = 0 := Nat.lt_one_iff.mp hbound
      right
      constructor
      · lia
      · rw [← heq]
        simp [hzero]
  constructor
  · intro i hi
    rw [List.length_append]
    rcases List.mem_cons.mp hi with rfl | hi
    · exact Nat.lt_succ_self _
    · exact Nat.lt_succ_of_lt (h.bound i hi)
  · intro i c hc
    rcases hcases i c hc with ⟨hne, hc⟩ | ⟨rfl, rfl⟩
    · rw [List.count_cons_of_ne hne.symm]
      exact h.count i c hc
    · rw [List.count_cons_self, List.count_eq_zero_of_not_mem hfresh]
      rfl
  · intro i c hc
    rcases hcases i c hc with ⟨hne, hc⟩ | ⟨rfl, rfl⟩
    · rw [h.closed i c hc, List.mem_cons, not_or]
      exact ⟨fun hnot => ⟨hne, hnot⟩, fun hboth => hboth.right⟩
    · simp

theorem getElem?_modify_ref {c : Cell α} {j : Nat} (hc : (p.ref i)[j]? = some c) :
    exists c', p[j]? = some c' ∧ c.closed = c'.closed ∧
      c.refs = c'.refs + if i = j then 1 else 0 := by
  unfold ref at hc
  rw [List.getElem?_modify] at hc
  rcases Option.map_eq_some_iff.mp hc with ⟨c', hc', heq⟩
  refine ⟨c', hc', ?_, ?_⟩
  · rw [← heq]
    split
    · rfl
    · rfl
  · rw [← heq]
    split
    · rfl
    · simp

theorem Counted.ref (h : Counted p owners) (hi : i ∈ owners) :
    Counted (p.ref i) (i :: owners) := by
  constructor
  · intro j hj
    rw [length_ref]
    rcases List.mem_cons.mp hj with rfl | hj
    · exact h.bound j hi
    · exact h.bound j hj
  · intro j c hc
    rcases getElem?_modify_ref hc with ⟨c', hc', _, hrefs⟩
    rw [hrefs, h.count j c' hc', List.count_cons]
    simp only [beq_iff_eq]
    split
    · rfl
    · rfl
  · intro j c hc
    rcases getElem?_modify_ref hc with ⟨c', hc', hclosed, _⟩
    rw [hclosed, h.closed j c' hc', List.mem_cons, not_or]
    constructor
    · intro hnot
      refine ⟨?_, hnot⟩
      rintro rfl
      exact hnot hi
    · intro hboth
      exact hboth.right

theorem getElem?_modify_drop {c : Cell α} {j : Nat} (hc : (p.modify i dropCell)[j]? = some c) :
    exists c', p[j]? = some c' ∧ c = if i = j then dropCell c' else c' := by
  rw [List.getElem?_modify] at hc
  rcases Option.map_eq_some_iff.mp hc with ⟨c', hc', heq⟩
  exact ⟨c', hc', heq.symm⟩

theorem live_modify_drop {c : Cell α} (hc : p[i]? = some c) (hopen : c.closed = false) :
    if c.refs - 1 = 0 then p.live.Perm (c.val :: live (p.modify i dropCell))
    else live (p.modify i dropCell) = p.live := by
  induction p generalizing i with
  | nil => cases hc
  | cons a p ih =>
      cases i with
      | zero =>
          cases hc
          rw [List.modify_zero_cons]
          unfold live
          split
          · rename_i hzero
            rw [List.filter_cons_of_pos (by simp [hopen]),
              List.filter_cons_of_neg (by simp [dropCell, hzero])]
            exact List.Perm.refl _
          · rename_i hzero
            have hstay : (dropCell c).closed = false := by
              simp [dropCell, hopen, hzero]
            rw [List.filter_cons_of_pos (by simp [hstay]),
              List.filter_cons_of_pos (by simp [hopen])]
            rfl
      | succ i =>
          have hrest := ih (i := i) hc
          rw [List.modify_succ_cons]
          unfold live at hrest ⊢
          rw [List.filter_cons, List.filter_cons]
          split
          · rename_i hzero
            rw [if_pos hzero] at hrest
            split
            · exact (hrest.cons a.val).trans (List.Perm.swap _ _ _)
            · exact hrest
          · rename_i hzero
            rw [if_neg hzero] at hrest
            split
            · rw [List.map_cons, List.map_cons, hrest]
            · exact hrest

/-- An owner may always give up its reference; the object is closed when nobody
else owns it. -/
theorem Counted.unref (h : Counted p (i :: owners)) :
    exists c, p[i]? = some c ∧ c.closed = false ∧
      p.unref i = some (p.modify i dropCell, decide (i ∉ owners)) ∧
      Counted (p.modify i dropCell) owners ∧
      (i ∉ owners -> p.live.Perm (c.val :: live (p.modify i dropCell))) ∧
      (i ∈ owners -> live (p.modify i dropCell) = p.live) := by
  have hlt := h.bound i List.mem_cons_self
  have hc : p[i]? = some p[i] := List.getElem?_eq_getElem hlt
  have hcount := h.count i _ hc
  rw [List.count_cons_self] at hcount
  have hopen : p[i].closed = false := by
    rw [← Bool.not_eq_true, h.closed i _ hc]
    exact fun hnot => hnot List.mem_cons_self
  have hzero : p[i].refs - 1 = 0 <-> i ∉ owners := by
    rw [← List.count_eq_zero]
    lia
  have hlive := live_modify_drop hc hopen
  refine ⟨p[i], hc, hopen, ?_, ⟨?_, ?_, ?_⟩, ?_, ?_⟩
  · unfold Pool.unref
    rw [hc, Option.bind_some, if_neg (by lia)]
    simp only [hzero]
  · intro j hj
    rw [List.length_modify]
    exact h.bound j (List.mem_cons_of_mem i hj)
  · intro j c hc'
    rcases getElem?_modify_drop hc' with ⟨c', hold, rfl⟩
    have hj := h.count j c' hold
    rw [List.count_cons] at hj
    split
    · rename_i heq
      rw [if_pos (beq_iff_eq.mpr heq)] at hj
      show c'.refs - 1 = _
      lia
    · rename_i hne
      rw [if_neg (by simpa using hne)] at hj
      exact hj
  · intro j c hc'
    rcases getElem?_modify_drop hc' with ⟨c', hold, rfl⟩
    split
    · rename_i heq
      subst heq
      rw [hc] at hold
      cases hold
      unfold dropCell
      simp only [hopen, Bool.false_or, decide_eq_true_eq]
      exact hzero
    · rename_i hne
      rw [h.closed j c' hold, List.mem_cons, not_or]
      exact ⟨fun hboth => hboth.right, fun hnot => ⟨fun heq => hne heq.symm, hnot⟩⟩
  · intro hnot
    rw [if_pos (hzero.mpr hnot)] at hlive
    exact hlive
  · intro hmem
    rw [if_neg (fun hz => hzero.mp hz hmem)] at hlive
    exact hlive

theorem Counted.mem_live (h : Counted p owners) (hi : i ∈ owners) :
    exists val, p.vals[i]? = some val ∧ val ∈ p.live := by
  have hlt := h.bound i hi
  have hc : p[i]? = some p[i] := List.getElem?_eq_getElem hlt
  have hopen : p[i].closed = false := by
    rw [← Bool.not_eq_true, h.closed i _ hc]
    exact fun hnot => hnot hi
  refine ⟨p[i].val, ?_, ?_⟩
  · unfold vals
    rw [List.getElem?_map, hc]
    rfl
  · apply List.mem_map_of_mem
    rw [List.mem_filter, hopen]
    exact ⟨List.getElem_mem hlt, rfl⟩

end Pool

end Lib
end Basalt
