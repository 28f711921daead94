import Mathlib.Data.List.Sort
import Mathlib.Order.Defs.Unbundled

/-!
# Heaps of things that change

A heap is a list of numbered things, ordered by keys that are looked up when
they are compared.  The keys of the things may change; the operations of a heap
package restore the order when it is only the root that has changed, or when
the root is taken out.
-/

namespace Basalt
namespace Lib

open Std

variable {κ : Type}

/-- What a heap package promises.  `fix` and `pop` may be given keys that differ
from those the list was a heap for in the key of the root; `pop` takes the root
out and does not look at its key. -/
structure HeapPackage (cmp : κ -> κ -> Ordering) where
  IsHeap : (Nat -> κ) -> List Nat -> Prop
  init : (Nat -> κ) -> List Nat -> List Nat
  fix : (Nat -> κ) -> List Nat -> List Nat
  pop : (Nat -> κ) -> List Nat -> List Nat
  root_le : forall {key : Nat -> κ} {x y : Nat} {xs : List Nat}, IsHeap key (x :: xs) -> y ∈ xs ->
    ¬ cmp (key y) (key x) = .lt
  init_perm : forall (key : Nat -> κ) (xs : List Nat), (init key xs).Perm xs
  init_heap : forall (key : Nat -> κ) (xs : List Nat), IsHeap key (init key xs)
  fix_perm : forall {key key' : Nat -> κ} {x : Nat} {xs : List Nat}, IsHeap key (x :: xs) ->
    (forall y, y ∈ xs -> key' y = key y) -> (fix key' (x :: xs)).Perm (x :: xs)
  fix_heap : forall {key key' : Nat -> κ} {x : Nat} {xs : List Nat}, IsHeap key (x :: xs) ->
    (forall y, y ∈ xs -> key' y = key y) -> IsHeap key' (fix key' (x :: xs))
  pop_perm : forall {key key' : Nat -> κ} {x : Nat} {xs : List Nat}, IsHeap key (x :: xs) ->
    (forall y, y ∈ xs -> key' y = key y) -> (pop key' (x :: xs)).Perm xs
  pop_heap : forall {key key' : Nat -> κ} {x : Nat} {xs : List Nat}, IsHeap key (x :: xs) ->
    (forall y, y ∈ xs -> key' y = key y) -> IsHeap key' (pop key' (x :: xs))

/-!
## Sorted lists

Sorted lists are heaps; so there is a package that keeps the promises.
-/

variable {α : Type} (cmp : κ -> κ -> Ordering)

def KeyOrder (key : α -> κ) (x y : α) : Prop :=
  (cmp (key x) (key y)).isLE = true

instance (key : α -> κ) : DecidableRel (KeyOrder cmp key) :=
  fun x y => inferInstanceAs (Decidable ((cmp (key x) (key y)).isLE = true))

theorem sorted_congr {key key' : α -> κ} {xs : List α}
    (h : xs.Pairwise (KeyOrder cmp key)) (hsame : forall y, y ∈ xs -> key' y = key y) :
    xs.Pairwise (KeyOrder cmp key') := by
  refine List.Pairwise.imp_of_mem ?_ h
  intro x y hx hy hxy
  unfold KeyOrder
  rw [hsame x hx, hsame y hy]
  exact hxy

variable [TransCmp cmp]

instance (key : α -> κ) : IsTrans α (KeyOrder cmp key) where
  trans _ _ _ hxy hyz := TransCmp.isLE_trans hxy hyz

instance (key : α -> κ) : Std.Total (KeyOrder cmp key) where
  total x y := by
    unfold KeyOrder
    rw [@OrientedCmp.eq_swap κ cmp _ (key y) (key x)]
    cases cmp (key x) (key y) with
    | lt | eq => exact Or.inl rfl
    | gt => exact Or.inr rfl

def sortedPackage : HeapPackage cmp where
  IsHeap := fun key xs => xs.Pairwise (KeyOrder cmp key)
  init := fun key xs => xs.insertionSort (KeyOrder cmp key)
  fix := fun key xs => xs.insertionSort (KeyOrder cmp key)
  pop := fun _ xs => xs.tail
  root_le := fun {key x y xs} h hy hlt => by
    have hle := (List.pairwise_cons.mp h).left y hy
    unfold KeyOrder at hle
    rw [OrientedCmp.gt_of_lt hlt] at hle
    cases hle
  init_perm := fun key xs => List.perm_insertionSort _ xs
  init_heap := fun key xs => List.pairwise_insertionSort _ xs
  fix_perm := fun _ _ => List.perm_insertionSort _ _
  fix_heap := fun _ _ => List.pairwise_insertionSort _ _
  pop_perm := fun _ _ => List.Perm.refl _
  pop_heap := fun h hsame => sorted_congr cmp (List.pairwise_cons.mp h).right hsame

end Lib
end Basalt
