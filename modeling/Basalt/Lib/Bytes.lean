import Mathlib.Data.List.Basic

/-!
# Fixed-width numbers

Fixed-width encodings of natural numbers as byte lists, little-endian and
big-endian.  A value that does not fit its width is reduced modulo the range, as a conversion
of machine integers does.
-/

namespace Basalt
namespace Lib

abbrev Bytes := List UInt8

/-- The `w` low bytes of `x`, least significant first. -/
def putLE : Nat -> Nat -> Bytes
  | 0, _ => []
  | w + 1, x => UInt8.ofNat x :: putLE w (x / 256)

def getLE : Bytes -> Nat
  | [] => 0
  | b :: bs => b.toNat + 256 * getLE bs

/-- How many numbers fit into `w` bytes. -/
def rangeLE : Nat -> Nat
  | 0 => 1
  | w + 1 => 256 * rangeLE w

@[simp]
theorem putLE_length (w x : Nat) : (putLE w x).length = w := by
  induction w generalizing x with
  | zero => rfl
  | succ w ih => simp [putLE, ih]

theorem getLE_putLE_mod (w x : Nat) : getLE (putLE w x) = x % rangeLE w := by
  induction w generalizing x with
  | zero => simp [putLE, getLE, rangeLE, Nat.mod_one]
  | succ w ih =>
      rw [putLE, getLE, ih, rangeLE, Nat.mod_mul]
      rfl

theorem getLE_putLE {w x : Nat} (h : x < rangeLE w) :
    getLE (putLE w x) = x := by
  rw [getLE_putLE_mod, Nat.mod_eq_of_lt h]

theorem getLE_lt (bs : Bytes) : getLE bs < rangeLE bs.length := by
  induction bs with
  | nil => decide
  | cons b bs ih =>
      have hb : b.toNat < 256 := b.toNat_lt
      rw [getLE, List.length_cons, rangeLE]
      lia

theorem putLE_getLE (bs : Bytes) : putLE bs.length (getLE bs) = bs := by
  induction bs with
  | nil => rfl
  | cons b bs ih =>
      have hb : b.toNat < 256 := b.toNat_lt
      have hdiv : (b.toNat + 256 * getLE bs) / 256 = getLE bs := by lia
      have hlow : UInt8.ofNat (b.toNat + 256 * getLE bs) = b := by
        apply UInt8.toNat_inj.mp
        rw [UInt8.toNat_ofNat']
        lia
      rw [getLE, List.length_cons, putLE, hdiv, hlow, ih]

theorem putLE_succ (w x : Nat) :
    putLE (w + 1) x = putLE w x ++ [UInt8.ofNat (x / rangeLE w)] := by
  induction w generalizing x with
  | zero => simp [putLE, rangeLE]
  | succ w ih =>
      rw [putLE, ih, Nat.div_div_eq_div_mul]
      rfl

def putBE (w x : Nat) : Bytes :=
  (putLE w x).reverse

def getBE (bs : Bytes) : Nat :=
  getLE bs.reverse

@[simp]
theorem putBE_length (w x : Nat) : (putBE w x).length = w := by
  rw [putBE, List.length_reverse, putLE_length]

theorem getBE_putBE {w x : Nat} (h : x < rangeLE w) : getBE (putBE w x) = x := by
  rw [getBE, putBE, List.reverse_reverse, getLE_putLE h]

theorem putBE_succ (w x : Nat) :
    putBE (w + 1) x = UInt8.ofNat (x / rangeLE w) :: putBE w x := by
  rw [putBE, putLE_succ, List.reverse_append]
  rfl

end Lib
end Basalt
