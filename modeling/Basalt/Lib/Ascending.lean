import Mathlib.Data.List.Sort

/-!
# Ascending lists

Lists without duplicates in the order of a comparison, and their parts from an
element on.
-/

namespace Basalt
namespace Lib

open Std

variable {α : Type} {cmp : α -> α -> Ordering}

def Ascending (cmp : α -> α -> Ordering) (l : List α) : Prop :=
  l.Pairwise fun a b => cmp a b = .lt

def upFrom (cmp : α -> α -> Ordering) (x : α) (l : List α) : List α :=
  l.filter fun y => (cmp x y).isLE

def above (cmp : α -> α -> Ordering) (x : α) (l : List α) : List α :=
  l.filter fun y => (cmp x y).isLT

def Upward (cmp : α -> α -> Ordering) (p : α -> Bool) : Prop :=
  forall a b, cmp a b = .lt -> p a = true -> p b = true

namespace Ascending

variable {l l' : List α}

theorem sublist (h : Ascending cmp l) (hsub : l'.Sublist l) : Ascending cmp l' :=
  List.Pairwise.sublist hsub h

theorem filter (h : Ascending cmp l) (p : α -> Bool) : Ascending cmp (l.filter p) :=
  h.sublist List.filter_sublist

theorem eq_append {p : α -> Bool} (h : Ascending cmp l) (hp : Upward cmp p) :
    exists lower upper, l = lower ++ upper ∧ (forall a, a ∈ lower -> ¬ p a = true) ∧
      forall a, a ∈ upper -> p a = true := by
  induction l with
  | nil => exact ⟨[], [], rfl, fun _ ha => absurd ha List.not_mem_nil,
      fun _ ha => absurd ha List.not_mem_nil⟩
  | cons a l ih =>
      rcases List.pairwise_cons.mp h with ⟨hall, hrest⟩
      by_cases ha : p a = true
      · refine ⟨[], a :: l, rfl, fun _ hb => absurd hb List.not_mem_nil, fun b hb => ?_⟩
        rcases List.mem_cons.mp hb with rfl | hb
        · exact ha
        · exact hp a b (hall b hb) ha
      · rcases ih hrest with ⟨lower, upper, rfl, hlower, hupper⟩
        refine ⟨a :: lower, upper, rfl, fun b hb => ?_, hupper⟩
        rcases List.mem_cons.mp hb with rfl | hb
        · exact ha
        · exact hlower b hb

end Ascending

section

variable [TransCmp cmp] {l l' : List α} {x y : α} {p : α -> Bool}

theorem upward_isLT (x : α) : Upward cmp fun y => (cmp x y).isLT := by
  intro a b hab ha
  rw [Ordering.isLT_iff_eq_lt] at ha ⊢
  exact TransCmp.lt_trans ha hab

theorem cmp_self (x : α) : cmp x x = .eq :=
  ReflCmp.compare_self

theorem cmp_eq_gt (h : cmp x y = .lt) : cmp y x = .gt :=
  OrientedCmp.gt_of_lt h

theorem isLE_of_not_isLT (h : ¬ (cmp x y).isLT = true) : (cmp y x).isLE = true := by
  rw [@OrientedCmp.eq_swap α cmp _ y x]
  cases hxy : cmp x y with
  | lt => exact absurd (by rw [hxy]; rfl) h
  | eq | gt => rfl

namespace Ascending

theorem upFrom_eq_cons (h : Ascending cmp l) (hx : x ∈ l) :
    upFrom cmp x l = x :: above cmp x l := by
  induction l with
  | nil => cases hx
  | cons a l ih =>
      rcases List.pairwise_cons.mp h with ⟨hall, hrest⟩
      unfold upFrom above
      rcases List.mem_cons.mp hx with rfl | hx
      · have hself : cmp x x = .eq := cmp_self x
        have hle : l.filter (fun y => (cmp x y).isLE) = l :=
          List.filter_eq_self.mpr fun b hb => by rw [hall b hb]; rfl
        have hlt : l.filter (fun y => (cmp x y).isLT) = l :=
          List.filter_eq_self.mpr fun b hb => by rw [hall b hb]; rfl
        rw [List.filter_cons_of_pos (by rw [hself]; rfl),
          List.filter_cons_of_neg (by rw [hself]; exact Bool.false_ne_true), hle, hlt]
      · have hgt : cmp x a = .gt := cmp_eq_gt (hall x hx)
        rw [List.filter_cons_of_neg (by rw [hgt]; exact Bool.false_ne_true),
          List.filter_cons_of_neg (by rw [hgt]; exact Bool.false_ne_true)]
        exact ih hrest hx

theorem filter_of_find? (h : Ascending cmp l) (hp : Upward cmp p) (hy : l.find? p = some y) :
    l.filter p = upFrom cmp y l := by
  induction l with
  | nil => cases hy
  | cons a l ih =>
      rcases List.pairwise_cons.mp h with ⟨hall, hrest⟩
      rw [List.find?_cons] at hy
      split at hy
      · next ha =>
          obtain rfl : a = y := Option.some.inj hy
          have hself : cmp a a = .eq := cmp_self a
          have hle : l.filter (fun y => (cmp a y).isLE) = l :=
            List.filter_eq_self.mpr fun b hb => by rw [hall b hb]; rfl
          unfold upFrom
          rw [List.filter_cons_of_pos ha,
            List.filter_eq_self.mpr fun b hb => hp a b (hall b hb) ha,
            List.filter_cons_of_pos (by rw [hself]; rfl), hle]
      · next ha =>
          have hgt : cmp y a = .gt := cmp_eq_gt (hall y (List.mem_of_find?_eq_some hy))
          unfold upFrom at ih ⊢
          rw [List.filter_cons_of_neg (by rw [ha]; exact Bool.false_ne_true),
            List.filter_cons_of_neg (by rw [hgt]; exact Bool.false_ne_true)]
          exact ih hrest hy

theorem filter_of_find?_none (hy : l.find? p = none) : l.filter p = [] := by
  apply List.filter_eq_nil_iff.mpr
  intro a ha
  exact List.find?_eq_none.mp hy a ha

theorem nodup (h : Ascending cmp l) : l.Nodup := by
  refine List.Pairwise.imp ?_ h
  rintro a b hab rfl
  have hself : cmp a a = .eq := cmp_self a
  rw [hself] at hab
  cases hab

theorem eq_of_cmp (h : Ascending cmp l) (hx : x ∈ l) (hy : y ∈ l) (heq : cmp x y = .eq) :
    x = y := by
  induction l with
  | nil => cases hx
  | cons a l ih =>
      rcases List.pairwise_cons.mp h with ⟨hall, hrest⟩
      rcases List.mem_cons.mp hx with rfl | hx'
      · rcases List.mem_cons.mp hy with rfl | hy'
        · rfl
        · rw [hall y hy'] at heq
          cases heq
      · rcases List.mem_cons.mp hy with rfl | hy'
        · rw [cmp_eq_gt (hall x hx')] at heq
          cases heq
        · exact ih hrest hx' hy'

end Ascending

end

end Lib
end Basalt
