import Mathlib.Data.List.Basic

/-!
# Linked lists

The links of a list give, for every place of it, the node that comes next.  A
place is the head, which is `none`, or a node.
-/

namespace Basalt
namespace Lib

abbrev Place := Option Nat

/-- What the link of a place holds: the end of the list, or a node.  Not every
place needs to have one. -/
abbrev Links := Place -> Option (Option Nat)

/-- The nodes that follow a place. -/
def Chain (f : Links) : Place -> List Nat -> Prop
  | x, [] => f x = some none
  | x, i :: is => f x = some (some i) ∧ Chain f (some i) is

def lastPlace : Place -> List Nat -> Place
  | x, [] => x
  | _, i :: is => lastPlace (some i) is

theorem lastPlace_append (x : Place) (is js : List Nat) :
    lastPlace x (is ++ js) = lastPlace (lastPlace x is) js := by
  induction is generalizing x with
  | nil => rfl
  | cons i is ih => exact ih (some i)

theorem lastPlace_none (is : List Nat) : lastPlace none is = is.getLast? := by
  rcases List.eq_nil_or_concat is with rfl | ⟨init, last, rfl⟩
  · rfl
  · rw [List.concat_eq_append, lastPlace_append, List.getLast?_append]
    rfl

theorem lastPlace_eq (x : Place) (is : List Nat) :
    lastPlace x is = x ∨ exists i, i ∈ is ∧ lastPlace x is = some i := by
  induction is generalizing x with
  | nil => exact Or.inl rfl
  | cons i is ih =>
      rcases ih (some i) with heq | ⟨j, hj, heq⟩
      · exact Or.inr ⟨i, List.mem_cons_self, heq⟩
      · exact Or.inr ⟨j, List.mem_cons_of_mem i hj, heq⟩

namespace Chain

variable {f g : Links} {x : Place} {is js : List Nat}

theorem next (h : Chain f x is) : f x = some is.head? := by
  cases is with
  | nil => exact h
  | cons i is => exact h.left

theorem after (h : Chain f x (is ++ js)) : Chain f (lastPlace x is) js := by
  induction is generalizing x with
  | nil => exact h
  | cons i is ih => exact ih h.right

theorem congr (h : Chain f x is) (hx : g x = f x)
    (his : forall i, i ∈ is -> g (some i) = f (some i)) : Chain g x is := by
  induction is generalizing x with
  | nil => exact hx.trans h
  | cons i is ih =>
      exact ⟨hx.trans h.left, ih h.right (his i List.mem_cons_self)
        fun j hj => his j (List.mem_cons_of_mem i hj)⟩

theorem splice {n : Nat} (h : Chain f x (is ++ js)) (hnodup : (is ++ js).Nodup)
    (hx : forall i, i ∈ is ++ js -> x ≠ some i) (hn : n ∉ is ++ js) (hxn : x ≠ some n)
    (hpred : g (lastPlace x is) = some (some n)) (hnew : g (some n) = f (lastPlace x is))
    (hsame : forall y, y ≠ lastPlace x is -> y ≠ some n -> g y = f y) :
    Chain g x (is ++ n :: js) := by
  -- Induction on the nodes in front of the new one.
  induction is generalizing x with
  | nil =>
      refine ⟨hpred, ?_⟩
      cases js with
      | nil => exact hnew.trans h
      | cons j js =>
          have hother : forall i, i ∈ j :: js -> g (some i) = f (some i) := by
            intro i hi
            apply hsame
            · exact fun heq => hx i hi heq.symm
            · intro heq
              cases heq
              exact hn hi
          exact ⟨hnew.trans h.left, h.right.congr (hother j List.mem_cons_self)
            fun i hi => hother i (List.mem_cons_of_mem j hi)⟩
  | cons i is ih =>
      rcases List.nodup_cons.mp hnodup with ⟨hfresh, hrest⟩
      have hne : x ≠ lastPlace (some i) is := by
        rcases lastPlace_eq (some i) is with heq | ⟨j, hj, heq⟩
        · rw [heq]
          exact hx i List.mem_cons_self
        · rw [heq]
          exact hx j (List.mem_cons_of_mem i (List.mem_append_left js hj))
      refine ⟨(hsame x hne hxn).trans h.left, ?_⟩
      apply ih h.right hrest _ _ _ hpred hnew hsame
      · intro j hj heq
        cases heq
        exact hfresh hj
      · exact fun hmem => hn (List.mem_cons_of_mem i hmem)
      · intro heq
        cases heq
        exact hn List.mem_cons_self

end Chain

end Lib
end Basalt
