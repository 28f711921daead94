import Mathlib.Data.List.Nodup

/-!
# Lists of items with distinct keys
-/

namespace Basalt
namespace Lib

variable {α : Type} {key : α -> Nat} {xs : List α} {x y : α}

theorem find?_key_of_mem (h : (xs.map key).Nodup) (hx : x ∈ xs) :
    xs.find? (fun y => key y = key x) = some x := by
  induction xs with
  | nil => cases hx
  | cons y xs ih =>
      have hnodup : key y ∉ xs.map key ∧ (xs.map key).Nodup := List.nodup_cons.mp h
      rcases List.mem_cons.mp hx with rfl | hx
      · rw [List.find?_cons_of_pos]
        exact decide_eq_true rfl
      · have hne : key y ≠ key x := fun heq => hnodup.left (heq ▸ List.mem_map_of_mem hx)
        rw [List.find?_cons_of_neg]
        · exact ih hnodup.right hx
        · exact fun heq => hne (of_decide_eq_true heq)

end Lib
end Basalt
