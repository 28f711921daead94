import Basalt.Lib.Varint

/-!
# Length-prefixed values
-/

namespace Basalt
namespace Base

open Lib

inductive FramingError where
  | corruptFraming
deriving DecidableEq, Repr

def FramingError.message : FramingError -> String
  | corruptFraming => "base: corrupt length-prefixed value"

def lengthPrefixed (val : Bytes) : Bytes :=
  putUvarint val.length ++ val

def decodeLengthPrefixed (src : Bytes) : Except FramingError (Bytes × Bytes) :=
  match getUvarint src with
  | none => .error .corruptFraming
  | some x =>
      if x.1 > x.2.length then .error .corruptFraming
      else .ok (x.2.take x.1, x.2.drop x.1)

theorem decodeLengthPrefixed_lengthPrefixed {val : Bytes} (h : val.length < rangeLE 8)
    (rest : Bytes) :
    decodeLengthPrefixed (lengthPrefixed val ++ rest) = .ok (val, rest) := by
  rw [decodeLengthPrefixed, lengthPrefixed, List.append_assoc, getUvarint_putUvarint h]
  dsimp only
  rw [if_neg, List.take_left' rfl, List.drop_left' rfl]
  rw [List.length_append]
  lia

theorem length_lengthPrefixed_pos (val : Bytes) : 0 < (lengthPrefixed val).length := by
  have hpos := length_putUvarint_pos val.length
  rw [lengthPrefixed, List.length_append]
  lia

end Base
end Basalt
