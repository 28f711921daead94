import Mathlib.Data.List.Forall2
import Basalt.Lib.Reader
import Basalt.Wal.Batch

/-!
# Decoding within bounds

The decoders of the source work with indexes into the payload, and with counts
and lengths that the payload itself announces.  `readBatch` keeps the indexes
and the arithmetic of machine words; it agrees with `decodeBatch` on every
payload, so that no slice is out of range.

What `decodeBatch` accepts is a base sequence number, a count, and as many
operations as the count says, with nothing behind them.
-/

namespace Basalt
namespace Wal

open Lib Base

/-!
## The decoders with indexes
-/

def words : Nat := 2 ^ 64

def maxLen : Nat := 2 ^ 63

def readLengthPrefixed (src : Bytes) : Checked FramingError (Bytes × Bytes) :=
  match uvarint src with
  | none => throw .corruptFraming
  | some n =>
      if n.1 > (src.length + words - n.2) % words then throw .corruptFraming
      else do
        let stop := (n.2 + n.1) % words
        let val <- slice src n.2 stop
        let rest <- slice src stop src.length
        pure (val, rest)

def readField (rest : Bytes) : Checked BatchError (Bytes × Bytes) :=
  ExceptT.adapt (fun _ => .corruptBatch) (readLengthPrefixed rest)

def readOp (rest : Bytes) : Checked BatchError (Op × Bytes) :=
  if rest.length = 0 then throw .corruptBatch
  else do
    let kind <- byteAt rest 0
    match Kind.ofByte? kind with
    | none => throw .corruptBatch
    | some kind => do
        let rest <- slice rest 1 rest.length
        let key <- readField rest
        match kind with
        | .delete => pure (.delete key.1, key.2)
        | .put => do
            let value <- readField key.2
            pure (.put key.1 value.1, value.2)

def readOps : Nat -> Bytes -> Checked BatchError (List Op × Bytes)
  | 0, rest => pure ([], rest)
  | n + 1, rest => do
      let op <- readOp rest
      let ops <- readOps n op.2
      pure (op.1 :: ops.1, ops.2)

def readBatch (payload : Bytes) : Checked BatchError Batch :=
  if payload.length < 8 then throw .corruptBatch
  else do
    let head <- slice payload 0 8
    let rest <- slice payload 8 payload.length
    match uvarint rest with
    | none => throw .corruptBatch
    | some count => do
        let rest <- slice rest count.2 rest.length
        if count.1 > rest.length / 2 then throw .corruptBatch
        else do
          let ops <- readOps count.1 rest
          if ops.2.length ≠ 0 then throw .corruptBatch
          else pure { baseSeq := getLE head, ops := ops.1 }

/-!
## What the decoders take
-/

theorem local_decodeLengthPrefixed : Local decodeLengthPrefixed := by
  intro buf val rest h
  unfold decodeLengthPrefixed at h
  split at h
  · cases h
  · next x hx =>
      split at h
      · cases h
      · next hle =>
          cases h
          rcases getUvarint_local hx with ⟨seg, hbuf, hseg⟩
          refine ⟨seg ++ x.2.take x.1, ?_, fun rest' => ?_⟩
          · rw [List.append_assoc, List.take_append_drop]
            exact hbuf
          · have hlen : (x.2.take x.1).length = x.1 := by
              rw [List.length_take]
              lia
            rw [decodeLengthPrefixed, List.append_assoc, hseg]
            dsimp only
            rw [if_neg (by rw [List.length_append]; lia), List.take_left' hlen,
              List.drop_left' hlen]

theorem local_decodeField : Local decodeField :=
  local_decodeLengthPrefixed.mapError _

theorem local_decodeOp : Local decodeOp := by
  intro buf op rest h
  cases buf with
  | nil => cases h
  | cons tag buf =>
      -- The kind says how the rest is read.
      have hread : forall read : Reader BatchError Op, Local read ->
          (forall buf, decodeOp (tag :: buf) = read buf) ->
          exists seg, tag :: buf = seg ++ rest ∧ Takes decodeOp seg op := by
        intro read hlocal hsame
        rw [hsame] at h
        rcases hlocal buf op rest h with ⟨seg, rfl, hseg⟩
        refine ⟨tag :: seg, rfl, fun rest' => ?_⟩
        rw [List.cons_append, hsame]
        exact hseg rest'
      cases hkind : Kind.ofByte? tag with
      | none =>
          rw [decodeOp, hkind] at h
          cases h
      | some kind =>
          cases kind with
          | delete =>
              apply hread _ (local_decodeField.bind fun key => Local.ret (Op.delete key))
              intro buf
              rw [decodeOp, hkind]
              rfl
          | put =>
              apply hread _ (local_decodeField.bind fun key =>
                local_decodeField.bind fun value => Local.ret (Op.put key value))
              intro buf
              rw [decodeOp, hkind]
              rfl

theorem decodeOps_segments {n : Nat} {buf rest : Bytes} {ops : List Op}
    (h : decodeOps n buf = .ok (ops, rest)) :
    ops.length = n ∧ exists segs : List Bytes, buf = segs.flatten ++ rest ∧
      List.Forall₂ (Takes decodeOp) segs ops := by
  induction n generalizing buf ops with
  | zero =>
      cases h
      exact ⟨rfl, [], rfl, .nil⟩
  | succ n ih =>
      rcases bind_eq_ok.mp h with ⟨⟨op, mid⟩, hop, h⟩
      rcases bind_eq_ok.mp h with ⟨⟨ops', last⟩, hops, h⟩
      cases h
      rcases local_decodeOp buf op mid hop with ⟨seg, rfl, hseg⟩
      rcases ih hops with ⟨hlen, segs, rfl, hsegs⟩
      refine ⟨congrArg Nat.succ hlen, seg :: segs, ?_, .cons hseg hsegs⟩
      rw [List.flatten_cons, List.append_assoc]

structure Batch.Spells (b : Batch) (payload : Bytes) : Prop where
  parts : exists (head count : Bytes) (segs : List Bytes),
    payload = head ++ (count ++ segs.flatten) ∧ head.length = 8 ∧ b.baseSeq = getLE head ∧
      (forall rest, getUvarint (count ++ rest) = some (b.ops.length, rest)) ∧
      List.Forall₂ (Takes decodeOp) segs b.ops

theorem spells_of_decodeBatch {payload : Bytes} {b : Batch} (h : decodeBatch payload = .ok b) :
    b.Spells payload := by
  unfold decodeBatch at h
  split at h
  · cases h
  · next hlen =>
      split at h
      · cases h
      · next count hcount =>
          split at h
          · cases h
          · rcases bind_eq_ok.mp h with ⟨⟨ops, rest⟩, hops, h⟩
            split at h
            · cases h
            · next hend =>
                cases h
                have hnil : rest = [] := by
                  apply List.eq_nil_of_length_eq_zero
                  exact not_not.mp hend
                subst hnil
                rcases decodeOps_segments hops with ⟨hnumber, segs, hsegs, hall⟩
                rcases getUvarint_local hcount with ⟨seg, hseg, hread⟩
                refine ⟨payload.take 8, seg, segs, ?_, ?_, rfl, ?_, hall⟩
                · rw [List.append_nil] at hsegs
                  rw [← hsegs, ← hseg, List.take_append_drop]
                · rw [List.length_take]
                  lia
                · intro rest
                  rw [hread]
                  show some (count.1, rest) = some (ops.length, rest)
                  rw [hnumber]

/-!
## No slice is out of range
-/

theorem safe_readLengthPrefixed {src : Bytes} (h : src.length < maxLen) :
    Safe (readLengthPrefixed src) (decodeLengthPrefixed src) := by
  unfold readLengthPrefixed decodeLengthPrefixed
  cases hx : getUvarint src with
  | none =>
      rw [uvarint_of_none hx]
      exact Safe.throwing _
  | some x =>
      rcases x with ⟨n, rest⟩
      rcases uvarint_of_some hx with ⟨w, hw, hle, hdrop⟩
      have hrest : rest.length = src.length - w := by
        rw [← hdrop, List.length_drop]
      have hleft : (src.length + words - w) % words = src.length - w := by
        unfold words maxLen at *
        lia
      rw [hw]
      dsimp only
      rw [hleft, hrest]
      split
      · exact Safe.throwing _
      · next hn =>
          have hstop : (w + n) % words = w + n := by
            unfold words maxLen at *
            lia
          have hval : (src.take (w + n)).drop w = rest.take n := by
            rw [List.drop_take, hdrop, Nat.add_sub_cancel_left]
          have htail : src.drop (w + n) = rest.drop n := by
            rw [← List.drop_drop, hdrop]
          rw [hstop, ← hval, ← htail]
          apply Safe.step (safe_slice (Nat.le_add_right w n) (by lia))
          apply Safe.step (safe_slice_length (by lia))
          exact Safe.ret _

theorem safe_readField {rest : Bytes} (h : rest.length < maxLen) :
    Safe (readField rest) (decodeField rest) :=
  (safe_readLengthPrefixed h).adapt _

theorem safe_readOp {rest : Bytes} (h : rest.length < maxLen) :
    Safe (readOp rest) (decodeOp rest) := by
  cases rest with
  | nil => exact Safe.throwing _
  | cons tag rest =>
      have htail : rest.length < maxLen := Nat.lt_of_succ_lt h
      have htake : Safe (slice (tag :: rest) 1 (tag :: rest).length : Checked BatchError Bytes)
          (.ok rest) := safe_slice_length (Nat.le_add_left _ _)
      rw [readOp, if_neg (by simp), decodeOp]
      apply Safe.step (safe_byteAt rest)
      cases hkind : Kind.ofByte? tag with
      | none => exact Safe.throwing _
      | some kind =>
          apply Safe.step htake
          cases kind with
          | delete =>
              apply Safe.bind (safe_readField htail)
              intro key _
              exact Safe.ret _
          | put =>
              apply Safe.bind (safe_readField htail)
              intro key hkey
              have hle := local_decodeField.length_le hkey
              apply Safe.bind (safe_readField (Nat.lt_of_le_of_lt hle htail))
              intro value _
              exact Safe.ret _

theorem safe_readOps {n : Nat} {rest : Bytes} (h : rest.length < maxLen) :
    Safe (readOps n rest) (decodeOps n rest) := by
  induction n generalizing rest with
  | zero => exact Safe.ret _
  | succ n ih =>
      apply Safe.bind (safe_readOp h)
      intro op hop
      have hle := local_decodeOp.length_le hop
      apply Safe.bind (ih (Nat.lt_of_le_of_lt hle h))
      intro ops _
      exact Safe.ret _

theorem safe_readBatch {payload : Bytes} (h : payload.length < maxLen) :
    Safe (readBatch payload) (decodeBatch payload) := by
  unfold readBatch decodeBatch
  split
  · exact Safe.throwing _
  · next hlen =>
      have hhead : Safe (slice payload 0 8 : Checked BatchError Bytes) (.ok (payload.take 8)) :=
        safe_slice (Nat.zero_le _) (Nat.le_of_not_lt hlen)
      apply Safe.step hhead
      apply Safe.step (safe_slice_length (Nat.le_of_not_lt hlen))
      cases hcount : getUvarint (payload.drop 8) with
      | none =>
          rw [uvarint_of_none hcount]
          exact Safe.throwing _
      | some count =>
          rcases count with ⟨n, rest⟩
          rcases uvarint_of_some hcount with ⟨w, hw, hle, hdrop⟩
          have hrest : rest.length < maxLen := by
            rw [← hdrop, List.length_drop, List.length_drop]
            lia
          have hskip : Safe (slice (payload.drop 8) w (payload.drop 8).length :
              Checked BatchError Bytes) (.ok rest) := by
            rw [← hdrop]
            exact safe_slice_length hle
          rw [hw]
          apply Safe.step hskip
          dsimp only
          split
          · exact Safe.throwing _
          · apply Safe.bind (safe_readOps hrest)
            intro ops _
            split
            · exact Safe.throwing _
            · exact Safe.ret _

end Wal
end Basalt
