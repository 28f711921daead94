import Basalt.Lib.Bytes

/-!
# Variable-length numbers

A number is written in base 128, least significant digit first, and every byte
but the last has its high bit set.  A number of 64 bits takes at most ten
bytes, and the tenth has room for one bit.
-/

namespace Basalt
namespace Lib

def rangeDigits : Nat -> Nat
  | 0 => 2
  | n + 1 => 128 * rangeDigits n

/-- At most `n + 1` digits. -/
def putDigits : Nat -> Nat -> Bytes
  | 0, x => [UInt8.ofNat x]
  | n + 1, x =>
      if x < 128 then [UInt8.ofNat x]
      else UInt8.ofNat (x % 128 + 128) :: putDigits n (x / 128)

def putUvarint (x : Nat) : Bytes :=
  putDigits 9 x

def getDigits : Nat -> Bytes -> Option (Nat × Bytes)
  | _, [] => none
  | 0, b :: bs => if 1 < b.toNat then none else some (b.toNat, bs)
  | n + 1, b :: bs =>
      if b.toNat < 128 then some (b.toNat, bs)
      else (getDigits n bs).map fun x => (b.toNat - 128 + 128 * x.1, x.2)

def getUvarint (buf : Bytes) : Option (Nat × Bytes) :=
  getDigits 9 buf

theorem toNat_ofNat_of_lt {x : Nat} (h : x < 256) : (UInt8.ofNat x).toNat = x := by
  rw [UInt8.toNat_ofNat']
  exact Nat.mod_eq_of_lt h

theorem getDigits_putDigits {n x : Nat} (h : x < rangeDigits n) (rest : Bytes) :
    getDigits n (putDigits n x ++ rest) = some (x, rest) := by
  induction n generalizing x with
  | zero =>
      rw [rangeDigits] at h
      have hx : (UInt8.ofNat x).toNat = x := toNat_ofNat_of_lt (by lia)
      change (if 1 < (UInt8.ofNat x).toNat then none
        else some ((UInt8.ofNat x).toNat, rest)) = some (x, rest)
      rw [hx, if_neg (by lia)]
  | succ n ih =>
      rw [putDigits]
      split
      · next hlt =>
          have hx : (UInt8.ofNat x).toNat = x := toNat_ofNat_of_lt (by lia)
          rw [List.singleton_append, getDigits, hx, if_pos hlt]
      · next hge =>
          have hx : (UInt8.ofNat (x % 128 + 128)).toNat = x % 128 + 128 :=
            toNat_ofNat_of_lt (by lia)
          have hdiv : x / 128 < rangeDigits n := by
            rw [rangeDigits] at h
            lia
          rw [List.cons_append, getDigits, hx, if_neg (by lia), ih hdiv]
          change some (x % 128 + 128 - 128 + 128 * (x / 128), rest) = some (x, rest)
          have hsum : x % 128 + 128 - 128 + 128 * (x / 128) = x := by lia
          rw [hsum]

theorem rangeDigits_nine : rangeDigits 9 = rangeLE 8 :=
  rfl

theorem getUvarint_putUvarint {x : Nat} (h : x < rangeLE 8) (rest : Bytes) :
    getUvarint (putUvarint x ++ rest) = some (x, rest) :=
  getDigits_putDigits (rangeDigits_nine ▸ h) rest

theorem length_putDigits_pos (n x : Nat) : 0 < (putDigits n x).length := by
  cases n with
  | zero => exact Nat.one_pos
  | succ n =>
      rw [putDigits]
      split
      · exact Nat.one_pos
      · exact Nat.succ_pos _

theorem length_putDigits_le (n x : Nat) : (putDigits n x).length ≤ n + 1 := by
  induction n generalizing x with
  | zero => exact Nat.le_refl _
  | succ n ih =>
      rw [putDigits]
      split
      · exact Nat.le_add_left _ _
      · exact Nat.succ_le_succ (ih _)

theorem length_putUvarint_le (x : Nat) : (putUvarint x).length ≤ 10 :=
  length_putDigits_le 9 x

theorem one_lt_length_putUvarint {x : Nat} (h : 128 ≤ x) : 1 < (putUvarint x).length := by
  rw [putUvarint, putDigits, if_neg (Nat.not_lt.mpr h), List.length_cons]
  exact Nat.succ_lt_succ (length_putDigits_pos _ _)

theorem length_putUvarint_pos (x : Nat) : 0 < (putUvarint x).length :=
  length_putDigits_pos 9 x

end Lib
end Basalt
