import Basalt.Base.InternalKey
import Basalt.Base.Varint
import Basalt.Lib.Outcome

/-!
# Batches of writes

A batch is the unit in which the engine logs and applies writes.  It decodes
exactly or not at all.
-/

namespace Basalt
namespace Wal

open Lib Base

inductive Op where
  | put (userKey value : Bytes)
  | delete (userKey : Bytes)
deriving DecidableEq, Repr

namespace Op

def userKey : Op -> Bytes
  | put userKey _ => userKey
  | delete userKey => userKey

def encode : Op -> Bytes
  | put userKey value => Kind.put.toByte :: (lengthPrefixed userKey ++ lengthPrefixed value)
  | delete userKey => Kind.delete.toByte :: lengthPrefixed userKey

def InRange : Op -> Prop
  | put userKey value => userKey.length < rangeLE 8 ∧ value.length < rangeLE 8
  | delete userKey => userKey.length < rangeLE 8

end Op

structure Batch where
  baseSeq : Nat := 0
  ops : List Op := []
deriving DecidableEq, Repr

inductive BatchError where
  | corruptBatch
deriving DecidableEq, Repr

def BatchError.message : BatchError -> String
  | corruptBatch => "wal: corrupt batch payload"

namespace Batch

def encode (b : Batch) : Bytes :=
  putLE 8 b.baseSeq ++ (putUvarint b.ops.length ++ (b.ops.map Op.encode).flatten)

end Batch

def decodeField (rest : Bytes) : Except BatchError (Bytes × Bytes) :=
  (decodeLengthPrefixed rest).mapError fun _ => .corruptBatch

def decodeOp (rest : Bytes) : Except BatchError (Op × Bytes) :=
  match rest with
  | [] => .error .corruptBatch
  | kind :: rest =>
      match Kind.ofByte? kind with
      | none => .error .corruptBatch
      | some .delete => do
          let key <- decodeField rest
          pure (.delete key.1, key.2)
      | some .put => do
          let key <- decodeField rest
          let value <- decodeField key.2
          pure (.put key.1 value.1, value.2)

def decodeOps : Nat -> Bytes -> Except BatchError (List Op × Bytes)
  | 0, rest => .ok ([], rest)
  | n + 1, rest => do
      let op <- decodeOp rest
      let ops <- decodeOps n op.2
      pure (op.1 :: ops.1, ops.2)

def decodeBatch (payload : Bytes) : Except BatchError Batch :=
  if payload.length < 8 then .error .corruptBatch
  else
    match getUvarint (payload.drop 8) with
    | none => .error .corruptBatch
    | some count =>
        -- Every write takes at least two bytes.
        if count.1 > count.2.length / 2 then .error .corruptBatch
        else do
          let ops <- decodeOps count.1 count.2
          if ops.2.length ≠ 0 then .error .corruptBatch
          else pure { baseSeq := getLE (payload.take 8), ops := ops.1 }

/-!
## Round trip
-/

theorem decodeField_lengthPrefixed {val : Bytes} (h : val.length < rangeLE 8) (rest : Bytes) :
    decodeField (lengthPrefixed val ++ rest) = .ok (val, rest) := by
  rw [decodeField, decodeLengthPrefixed_lengthPrefixed h]
  rfl

theorem decodeOp_encode {op : Op} (h : op.InRange) (rest : Bytes) :
    decodeOp (op.encode ++ rest) = .ok (op, rest) := by
  cases op with
  | put key value =>
      rw [Op.encode, List.cons_append, List.append_assoc, decodeOp, Kind.ofByte?_toByte]
      dsimp only
      rw [decodeField_lengthPrefixed h.left]
      change (do
        let value <- decodeField (lengthPrefixed value ++ rest)
        pure (Op.put key value.1, value.2)) = .ok (.put key value, rest)
      rw [decodeField_lengthPrefixed h.right]
      rfl
  | delete key =>
      rw [Op.encode, List.cons_append, decodeOp, Kind.ofByte?_toByte]
      dsimp only
      rw [decodeField_lengthPrefixed h]
      rfl

theorem decodeOps_encode {ops : List Op} (h : forall op, op ∈ ops -> op.InRange)
    (rest : Bytes) :
    decodeOps ops.length ((ops.map Op.encode).flatten ++ rest) = .ok (ops, rest) := by
  induction ops with
  | nil => rfl
  | cons op ops ih =>
      rw [List.map_cons, List.flatten_cons, List.append_assoc, List.length_cons, decodeOps,
        decodeOp_encode (h op List.mem_cons_self)]
      change (do
        let ops <- decodeOps ops.length ((ops.map Op.encode).flatten ++ rest)
        pure (op :: ops.1, ops.2)) = .ok (op :: ops, rest)
      rw [ih fun o ho => h o (List.mem_cons_of_mem op ho)]
      rfl

theorem two_le_length_encode (op : Op) : 2 ≤ op.encode.length := by
  cases op with
  | put key value =>
      have hkey := length_lengthPrefixed_pos key
      rw [Op.encode, List.length_cons, List.length_append]
      lia
  | delete key =>
      have hkey := length_lengthPrefixed_pos key
      rw [Op.encode, List.length_cons]
      lia

theorem length_le_encode (ops : List Op) :
    2 * ops.length ≤ (ops.map Op.encode).flatten.length := by
  induction ops with
  | nil => exact Nat.le_refl 0
  | cons op ops ih =>
      have hop := two_le_length_encode op
      rw [List.map_cons, List.flatten_cons, List.length_append, List.length_cons]
      lia

namespace Batch

structure InRange (b : Batch) : Prop where
  baseSeq : b.baseSeq < rangeLE 8
  count : b.ops.length < rangeLE 8
  ops : forall op, op ∈ b.ops -> op.InRange

theorem decodeBatch_encode {b : Batch} (h : b.InRange) : decodeBatch b.encode = .ok b := by
  have hlen := length_le_encode b.ops
  have hops := decodeOps_encode h.ops []
  rw [List.append_nil] at hops
  rw [decodeBatch, encode, if_neg (by rw [List.length_append, putLE_length]; lia),
    List.drop_left' (putLE_length 8 _), List.take_left' (putLE_length 8 _),
    getUvarint_putUvarint h.count, getLE_putLE h.baseSeq]
  dsimp only
  rw [if_neg (by lia), hops]
  rfl

end Batch

end Wal
end Basalt
