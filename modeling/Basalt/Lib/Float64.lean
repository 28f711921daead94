import Mathlib.Data.Int.Log
import Mathlib.Data.Rat.Floor
import Mathlib.Tactic.Linarith

/-!
# Quotients of integers in double precision

Integers are rounded to the nearest number with 53 significant bits, ties to even,
and so is their quotient.  Quotients of 64-bit integers are far from the ends of the
exponent range, which therefore is not bounded here.  A quotient by zero is infinite,
or not a number.
-/

namespace Basalt
namespace Lib

inductive Float64 where
  | nan
  | finite (q : Rat)
  | inf
deriving DecidableEq, Repr

namespace Float64

protected def le : Float64 -> Float64 -> Prop
  | nan, _ => False
  | _, nan => False
  | _, inf => True
  | inf, finite _ => False
  | finite p, finite q => p ≤ q

instance : LE Float64 :=
  ⟨Float64.le⟩

instance : (x y : Float64) -> Decidable (x ≤ y)
  | nan, nan | nan, finite _ | nan, inf => inferInstanceAs (Decidable False)
  | finite _, nan | inf, nan => inferInstanceAs (Decidable False)
  | finite _, inf | inf, inf => inferInstanceAs (Decidable True)
  | inf, finite _ => inferInstanceAs (Decidable False)
  | finite p, finite q => inferInstanceAs (Decidable (p ≤ q))

def nearestEven (q : Rat) : Int :=
  if q - ⌊q⌋ < 1 / 2 then ⌊q⌋
  else if 1 / 2 < q - ⌊q⌋ then ⌊q⌋ + 1
  else if ⌊q⌋ % 2 = 0 then ⌊q⌋
  else ⌊q⌋ + 1

/-- The distance of the numbers with 53 significant bits around `q`. -/
def ulp (q : Rat) : Rat :=
  2 ^ (Int.log 2 |q| - 52)

def round (q : Rat) : Rat :=
  nearestEven (q / ulp q) * ulp q

/-- The quotient of two integers that are converted first. -/
def quotient (a : Nat) (b : Int) : Float64 :=
  if round b = 0 then
    if round a = 0 then nan else inf
  else finite (round (round a / round b))

theorem le_trans {x y z : Float64} (h : x ≤ y) (h' : y ≤ z) : x ≤ z := by
  cases x with
  | nan => exact h
  | finite p =>
      cases y with
      | nan => exact False.elim h
      | finite q =>
          cases z with
          | nan => exact h'
          | finite r => exact Rat.le_trans h h'
          | inf => trivial
      | inf =>
          cases z with
          | nan | finite r => exact False.elim h'
          | inf => trivial
  | inf =>
      cases y with
      | nan | finite q => exact False.elim h
      | inf => exact h'

/-!
## Rounding
-/

variable {p q : Rat}

theorem nearestEven_bounds (q : Rat) : ⌊q⌋ ≤ nearestEven q ∧ nearestEven q ≤ ⌊q⌋ + 1 := by
  unfold nearestEven
  split
  · lia
  · split
    · lia
    · split
      · lia
      · lia

theorem nearestEven_mono (h : p ≤ q) : nearestEven p ≤ nearestEven q := by
  have hp := nearestEven_bounds p
  have hq := nearestEven_bounds q
  rcases lt_or_eq_of_le (Int.floor_mono h) with hlt | heq
  · lia
  · rw [heq] at hp
    have hsub : p - ⌊q⌋ ≤ q - ⌊q⌋ := sub_le_sub_right h _
    by_cases hlow : p - ⌊q⌋ < 1 / 2
    · have hfloor : nearestEven p = ⌊q⌋ := by
        unfold nearestEven
        rw [heq, if_pos hlow]
      lia
    · by_cases hhigh : 1 / 2 < q - ⌊q⌋
      · have hceil : nearestEven q = ⌊q⌋ + 1 := by
          unfold nearestEven
          rw [if_neg (by linarith), if_pos hhigh]
        lia
      · -- Both are the tie between the same two integers.
        have hsame : p = q := by linarith
        rw [hsame]

theorem nearestEven_intCast (n : Int) : nearestEven n = n := by
  unfold nearestEven
  rw [Int.floor_intCast, sub_self, if_pos (by norm_num)]

theorem ulp_pos (q : Rat) : 0 < ulp q :=
  zpow_pos (by norm_num) _

theorem round_zero : round 0 = 0 := by
  have h : nearestEven 0 = 0 := nearestEven_intCast 0
  unfold round
  rw [zero_div, h, Int.cast_zero, zero_mul]

theorem round_one : round 1 = 1 := by
  decide +kernel

theorem pow_mul_ulp (h : 0 < q) (n : Nat) :
    ((2 ^ n : Int) : Rat) * ulp q = 2 ^ (Int.log 2 q - 52 + n) := by
  rw [ulp, abs_of_pos h, Int.cast_pow, Int.cast_ofNat, ← zpow_natCast,
    ← zpow_add₀ (by norm_num), add_comm]

theorem round_bounds (h : 0 < q) :
    (2 : Rat) ^ Int.log 2 q ≤ round q ∧ round q ≤ 2 ^ (Int.log 2 q + 1) := by
  have hulp := ulp_pos q
  have hlow : ((2 ^ 52 : Int) : Rat) ≤ q / ulp q := by
    rw [le_div_iff₀ hulp, pow_mul_ulp h, Nat.cast_ofNat, sub_add_cancel]
    exact_mod_cast Int.zpow_log_le_self (b := 2) (by norm_num) h
  have hhigh : q / ulp q ≤ ((2 ^ 53 : Int) : Rat) := by
    rw [div_le_iff₀ hulp, pow_mul_ulp h, show Int.log 2 q - 52 + (53 : Nat) = Int.log 2 q + 1 by
      push_cast; ring]
    exact_mod_cast (Int.lt_zpow_succ_log_self (b := 2) (by norm_num) q).le
  have hlow' := nearestEven_mono hlow
  have hhigh' := nearestEven_mono hhigh
  rw [nearestEven_intCast] at hlow' hhigh'
  constructor
  · have hpow := pow_mul_ulp h 52
    rw [Nat.cast_ofNat, sub_add_cancel] at hpow
    rw [← hpow]
    exact mul_le_mul_of_nonneg_right (Int.cast_le.mpr hlow') hulp.le
  · have hpow := pow_mul_ulp h 53
    rw [show Int.log 2 q - 52 + (53 : Nat) = Int.log 2 q + 1 by push_cast; ring] at hpow
    rw [← hpow]
    exact mul_le_mul_of_nonneg_right (Int.cast_le.mpr hhigh') hulp.le

theorem round_pos (h : 0 < q) : 0 < round q :=
  lt_of_lt_of_le (zpow_pos (by norm_num) _) (round_bounds h).left

theorem round_mono (hp : 0 < p) (h : p ≤ q) : round p ≤ round q := by
  have hq : 0 < q := lt_of_lt_of_le hp h
  rcases lt_or_eq_of_le (Int.log_mono_right (b := 2) hp h) with hlt | heq
  · exact ((round_bounds hp).right.trans (zpow_le_zpow_right₀ (by norm_num) hlt)).trans
      (round_bounds hq).left
  · -- The numbers around `p` and `q` are equally far apart.
    have hulp : ulp p = ulp q := by
      rw [ulp, ulp, abs_of_pos hp, abs_of_pos hq, heq]
    unfold round
    rw [hulp]
    apply mul_le_mul_of_nonneg_right _ (ulp_pos q).le
    exact Int.cast_le.mpr (nearestEven_mono (div_le_div_of_nonneg_right h (ulp_pos q).le))

/-!
## Quotients
-/

theorem one_le_quotient {a : Nat} {b : Int} (hb : 0 < b) (h : b ≤ a) :
    finite 1 ≤ quotient a b := by
  have hpos : (0 : Rat) < b := Int.cast_pos.mpr hb
  have hle : (b : Rat) ≤ a := by exact_mod_cast h
  have hround := round_pos hpos
  unfold quotient
  rw [if_neg hround.ne']
  show 1 ≤ round (round a / round b)
  rw [← round_one]
  exact round_mono one_pos ((one_le_div hround).mpr (round_mono hpos hle))

theorem not_one_le_quotient (b : Int) : ¬ finite 1 ≤ quotient 0 b := by
  unfold quotient
  rw [Nat.cast_zero, round_zero, zero_div, if_pos rfl, round_zero]
  split
  · exact id
  · exact not_le.mpr (one_pos : (0 : Rat) < 1)

end Float64

end Lib
end Basalt
