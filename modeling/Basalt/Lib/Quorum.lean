import Mathlib.Data.Finset.Card
import Mathlib.Data.List.Sort

/-!
# Majority quorums

A quorum of a finite voter set is a strict majority of it.  The fact that the
agreement arguments use is that two quorums of one set share a member; the fact
that the counting programs use is that the `q`-th largest of a list of numbers
is reached by `q` of them.
-/

namespace Basalt
namespace Lib

def IsQuorum {node : Type _} (voters Q : Finset node) : Prop :=
  Q ⊆ voters ∧ voters.card / 2 + 1 ≤ Q.card

theorem IsQuorum.meet {node : Type _} [DecidableEq node]
    {voters Q R : Finset node}
    (hQ : IsQuorum voters Q) (hR : IsQuorum voters R) :
    exists v, v ∈ Q ∧ v ∈ R := by
  have hunion : (Q ∪ R).card ≤ voters.card :=
    Finset.card_le_card (Finset.union_subset hQ.left hR.left)
  have hsum := Finset.card_union_add_card_inter Q R
  have hpos : 0 < (Q ∩ R).card := by
    have hQcard := hQ.right
    have hRcard := hR.right
    lia
  rcases Finset.card_pos.mp hpos with ⟨v, hv⟩
  exact ⟨v, Finset.mem_of_mem_inter_left hv, Finset.mem_of_mem_inter_right hv⟩

theorem lt_countP_of_descending {xs : List Nat}
    (hsorted : xs.Pairwise (fun a b => b ≤ a)) {k x : Nat}
    (hk : xs[k]? = some x) : k < xs.countP (fun y => x ≤ y) := by
  rcases List.getElem?_eq_some_iff.mp hk with ⟨hlt, rfl⟩
  have hall : forall y, y ∈ xs.take (k + 1) -> xs[k] ≤ y := by
    intro y hy
    rcases List.mem_take_iff_getElem.mp hy with ⟨j, hj, rfl⟩
    rcases Nat.lt_or_ge j k with hjk | hjk
    · exact List.pairwise_iff_getElem.mp hsorted j k (by lia) hlt hjk
    · have hjk' : j = k := by lia
      subst hjk'
      exact Nat.le_refl _
  have hcount : (xs.take (k + 1)).countP (fun y => xs[k] ≤ y) = k + 1 := by
    rw [List.countP_eq_length.mpr (by simpa using hall), List.length_take]
    lia
  have hle := (List.take_sublist (k + 1) xs).countP_le
    (p := fun y => decide (xs[k] ≤ y))
  lia

theorem lt_countP_of_sort {xs : List Nat} {k x : Nat}
    (hk : (xs.insertionSort (fun a b => b ≤ a))[k]? = some x) :
    k < xs.countP (fun y => x ≤ y) := by
  rw [← (List.perm_insertionSort (fun a b => b ≤ a) xs).countP_eq]
  exact lt_countP_of_descending (List.pairwise_insertionSort _ xs) hk

end Lib
end Basalt
