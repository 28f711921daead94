import Mathlib.Data.List.Basic
import Mathlib.Tactic.Linarith.Datatypes

/-!
# Ranges of keys in ordered maps

Keys are lists over an ordered alphabet, compared lexicographically.  A range
is half-open.
-/

namespace Basalt
namespace Lib

open Std

section

variable {α β : Type} [Ord α]

def inRange (lo hi key : List α) : Bool :=
  (compare lo key).isLE && (compare key hi).isLT

theorem inRange_append [ReflOrd α] {p t : List α} {b c : α} (h : compare c b = .lt) :
    inRange p (p ++ [b]) (p ++ c :: t) = true := by
  rw [inRange, Bool.and_eq_true]
  induction p with
  | nil =>
      rw [List.nil_append, List.nil_append, List.compare_nil_cons, List.compare_cons_cons, h]
      exact ⟨rfl, rfl⟩
  | cons a p ih =>
      have haa : compare a a = .eq := ReflCmp.compare_self
      rw [List.cons_append, List.cons_append, List.compare_cons_cons, List.compare_cons_cons,
        haa]
      exact ih

theorem compare_append_least {b : α} (hb : forall c, (compare b c).isLE) {p key : List α} :
    (compare (p ++ [b]) key).isLE <-> (compare p key).isLT := by
  induction p generalizing key with
  | nil =>
      cases key with
      | nil => simp [List.compare_cons_nil]
      | cons x key =>
          rw [List.nil_append, List.compare_nil_cons, List.compare_cons_cons]
          cases hbx : compare b x with
          | lt => simp
          | gt =>
              have hle := hb x
              rw [hbx] at hle
              cases hle
          | eq =>
              cases key with
              | nil => simp
              | cons y key => simp [List.compare_nil_cons]
  | cons a p ih =>
      cases key with
      | nil => simp [List.compare_cons_nil]
      | cons x key =>
          rw [List.cons_append, List.compare_cons_cons, List.compare_cons_cons]
          cases compare a x with
          | lt | gt => simp
          | eq => exact ih

variable [TransOrd α] [LawfulEqOrd α]

def scan (m : ExtTreeMap (List α) β) (lo hi : List α) : List (List α × β) :=
  m.toList.filter fun x => inRange lo hi x.1

theorem mem_scan {m : ExtTreeMap (List α) β} {lo hi key : List α} {value : β} :
    (key, value) ∈ scan m lo hi <-> m[key]? = some value ∧ inRange lo hi key = true := by
  rw [scan, List.mem_filter, ExtTreeMap.mem_toList_iff_getElem?_eq_some]

theorem isPre_of_inRange {p key : List α} {b : α} (h : inRange p (p ++ [b]) key = true) :
    p <+: key := by
  rw [inRange, Bool.and_eq_true] at h
  induction p generalizing key with
  | nil => exact ⟨key, rfl⟩
  | cons a p ih =>
      cases key with
      | nil =>
          have hgt : compare (a :: p) [] = .gt := List.compare_cons_nil
          rw [hgt] at h
          cases h.left
      | cons x key =>
          rw [List.cons_append, List.compare_cons_cons, List.compare_cons_cons] at h
          cases hax : compare a x with
          | lt =>
              rw [OrientedCmp.gt_of_lt hax] at h
              cases h.right
          | gt =>
              rw [hax] at h
              cases h.left
          | eq =>
              have heq : a = x := LawfulEqCmp.eq_of_compare hax
              subst heq
              rw [hax] at h
              exact List.cons_prefix_cons.mpr ⟨rfl, ih h⟩

end

end Lib
end Basalt
