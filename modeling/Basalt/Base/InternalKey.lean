import Mathlib.Tactic.Linarith.Datatypes
import Basalt.Lib.Bytes

/-!
# Internal keys
-/

namespace Basalt
namespace Base

open Lib Std

inductive Kind where
  | delete
  | put
deriving DecidableEq, Repr

namespace Kind

def toByte : Kind -> UInt8
  | delete => 0
  | put => 1

def ofByte? (b : UInt8) : Option Kind :=
  if b = 0 then some delete else if b = 1 then some put else none

@[simp]
theorem ofByte?_toByte (k : Kind) : ofByte? k.toByte = some k := by
  cases k with
  | delete | put => rfl

end Kind

/-!
## The order of internal keys

An encoded internal key is the user key followed by a trailer that holds the
sequence number and the kind.
-/

def trailerLen : Nat := 8

def userKey (encoded : Bytes) : Bytes :=
  encoded.take (encoded.length - trailerLen)

def trailer (encoded : Bytes) : Nat :=
  getLE (encoded.drop (encoded.length - trailerLen))

/-- User keys ascend, and the versions of one user key descend. -/
def compareKeys (a b : Bytes) : Ordering :=
  (compare (userKey a) (userKey b)).then (compare (trailer b) (trailer a))

def KeyLE (a b : Bytes) : Prop :=
  (compareKeys a b).isLE = true

instance (a b : Bytes) : Decidable (KeyLE a b) :=
  inferInstanceAs (Decidable (_ = true))

instance : TransCmp compareKeys :=
  inferInstanceAs (TransCmp
    (compareLex (compareOn userKey) (fun a b : Bytes => compareOn trailer b a)))

instance : IsTrans Bytes KeyLE where
  trans _ _ _ hab hbc := TransCmp.isLE_trans hab hbc

instance : Std.Total KeyLE where
  total a b := by
    rw [KeyLE, KeyLE, @OrientedCmp.eq_swap Bytes compareKeys _ b a]
    cases compareKeys a b with
    | lt | eq => exact Or.inl rfl
    | gt => exact Or.inr rfl

theorem compareKeys_of_userKey_lt {a b : Bytes} (h : compare (userKey a) (userKey b) = .lt) :
    compareKeys a b = .lt := by
  unfold compareKeys
  rw [h]
  rfl

theorem userKey_isLE {a b : Bytes} (h : (compareKeys a b).isLE = true) :
    (compare (userKey a) (userKey b)).isLE = true := by
  unfold compareKeys at h
  cases hcmp : compare (userKey a) (userKey b) with
  | lt | eq => rfl
  | gt =>
      rw [hcmp] at h
      cases h

theorem compareKeys_of_trailer_lt {a b : Bytes} (huser : userKey a = userKey b)
    (h : trailer b < trailer a) : compareKeys a b = .lt := by
  have heq : compare (userKey a) (userKey b) = .eq := by
    rw [huser]
    exact ReflCmp.compare_self
  unfold compareKeys
  rw [heq]
  exact Nat.compare_eq_lt.mpr h

theorem trailer_le {a b : Bytes} (huser : userKey a = userKey b)
    (h : (compareKeys a b).isLE = true) : trailer b ≤ trailer a := by
  by_contra hlt
  have hgt := OrientedCmp.gt_of_lt (compareKeys_of_trailer_lt huser.symm (Nat.lt_of_not_le hlt))
  rw [hgt] at h
  cases h

theorem isLE_of_trailer_le {a b : Bytes} (huser : userKey a = userKey b)
    (h : trailer b ≤ trailer a) : (compareKeys a b).isLE = true := by
  have heq : compare (userKey a) (userKey b) = .eq := by
    rw [huser]
    exact ReflCmp.compare_self
  unfold compareKeys
  rw [heq]
  exact Nat.isLE_compare.mpr h

theorem eq_of_compareKeys {a b : Bytes} (ha : trailerLen ≤ a.length) (hb : trailerLen ≤ b.length)
    (h : compareKeys a b = .eq) : a = b := by
  have hkey : forall {c : Bytes}, trailerLen ≤ c.length -> c = userKey c ++ putLE 8 (trailer c) := by
    intro c hc
    have hlen : (c.drop (c.length - trailerLen)).length = 8 := by
      rw [List.length_drop, Nat.sub_sub_self hc]
      rfl
    have hback := putLE_getLE (c.drop (c.length - trailerLen))
    rw [hlen] at hback
    unfold userKey trailer
    rw [hback, List.take_append_drop]
  rcases Ordering.then_eq_eq.mp h with ⟨huser, htrailer⟩
  rw [hkey ha, hkey hb, LawfulEqCmp.eq_of_compare huser, Nat.compare_eq_eq.mp htrailer]

/-!
## Decoded keys
-/

structure InternalKey where
  userKey : Bytes
  seq : Nat
  kind : Kind
deriving DecidableEq, Repr

inductive KeyError where
  | tooShort
  | invalidKind (kind : Nat)
deriving DecidableEq, Repr

def KeyError.message : KeyError -> String
  | tooShort => "base: encoded internal key shorter than trailer"
  | invalidKind kind => "base: invalid internal key kind: " ++ toString kind

/-- The trailer holds the sequence number above the kind. -/
def keySeq (encoded : Bytes) : Nat :=
  trailer encoded / 256

def decodeInternalKey (encoded : Bytes) : Except KeyError InternalKey :=
  if encoded.length < trailerLen then .error .tooShort
  else
    match Kind.ofByte? (UInt8.ofNat (trailer encoded % 256)) with
    | none => .error (.invalidKind (trailer encoded % 256))
    | some kind => .ok { userKey := userKey encoded, seq := keySeq encoded, kind := kind }

def appendInternalKey (userKey : Bytes) (seq : Nat) (kind : Kind) : Bytes :=
  userKey ++ putLE trailerLen (seq * 256 + kind.toByte.toNat)

theorem decodeInternalKey_eq_ok {encoded : Bytes} {ik : InternalKey}
    (h : decodeInternalKey encoded = .ok ik) :
    trailerLen ≤ encoded.length ∧ ik.userKey = userKey encoded ∧ ik.seq = keySeq encoded := by
  unfold decodeInternalKey at h
  split at h
  · cases h
  · next hlen =>
      split at h
      · cases h
      · cases h
        exact ⟨Nat.le_of_not_lt hlen, rfl, rfl⟩

theorem trailer_lt_of_keySeq_lt {a b : Bytes} (h : keySeq a < keySeq b) :
    trailer a < trailer b := by
  unfold keySeq at h
  lia

end Base
end Basalt
