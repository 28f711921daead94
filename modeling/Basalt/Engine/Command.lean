import Basalt.Wal.BatchBounds

/-!
# Replicated commands

A command is a batch of writes with the identity of its client and the
client's sequence number.
-/

namespace Basalt
namespace Engine

open Lib Base Wal

/-- The bit of a client id that marks clients without sessions. -/
def noDedupClient : UInt64 := 0x8000000000000000

structure Command where
  clientID : UInt64
  seq : UInt64
  batch : Batch
deriving DecidableEq, Repr

inductive CommandError where
  | shortCommand
  | batch (err : BatchError)
deriving DecidableEq, Repr

def CommandError.message : CommandError -> String
  | shortCommand => "basalt: short command"
  | batch err => err.message

def encodeCommand (c : Command) : Bytes :=
  putLE 8 c.clientID.toNat ++ (putLE 8 c.seq.toNat ++ c.batch.encode)

def decodeCommand (data : Bytes) : Except CommandError Command :=
  if data.length < 16 then .error .shortCommand
  else do
    let b <- (decodeBatch (data.drop 16)).mapError .batch
    pure
      { clientID := UInt64.ofNat (getLE (data.take 8))
        seq := UInt64.ofNat (getLE ((data.drop 8).take 8))
        batch := b }

theorem ofNat_getLE (x : UInt64) : UInt64.ofNat (getLE (putLE 8 x.toNat)) = x := by
  rw [getLE_putLE x.toNat_lt, UInt64.ofNat_toNat]

theorem decodeCommand_encodeCommand {c : Command} (h : c.batch.InRange) :
    decodeCommand (encodeCommand c) = .ok c := by
  have hdrop : (encodeCommand c).drop 16 = c.batch.encode := by
    rw [encodeCommand, ← List.append_assoc]
    exact List.drop_left' (by rw [List.length_append, putLE_length, putLE_length])
  have hseq : ((encodeCommand c).drop 8).take 8 = putLE 8 c.seq.toNat := by
    rw [encodeCommand, List.drop_left' (putLE_length 8 _), List.take_left' (putLE_length 8 _)]
  have hclient : (encodeCommand c).take 8 = putLE 8 c.clientID.toNat :=
    List.take_left' (putLE_length 8 _)
  have hlen : ¬ (encodeCommand c).length < 16 := by
    rw [encodeCommand, List.length_append, List.length_append, putLE_length, putLE_length]
    lia
  rw [decodeCommand, if_neg hlen, hdrop, hseq, hclient, ofNat_getLE, ofNat_getLE,
    Batch.decodeBatch_encode h]
  rfl

/-- Commands are read back as they were written.  A batch is read without a slice
out of range; what is accepted is the whole payload, with as many operations as
it announces. -/
theorem commands_decode_exactly :
    (forall c : Command, c.batch.InRange -> decodeCommand (encodeCommand c) = .ok c) ∧
      forall payload : Bytes, payload.length < maxLen ->
        Safe (readBatch payload) (decodeBatch payload) ∧
        forall b, decodeBatch payload = .ok b -> b.Spells payload := by
  refine ⟨fun c hc => decodeCommand_encodeCommand hc, fun payload hlen => ⟨?_, ?_⟩⟩
  · exact safe_readBatch hlen
  · intro b hb
    exact spells_of_decodeBatch hb

/-- A key whose length is the largest number there is. -/
def longKey : Bytes :=
  putLE 8 1 ++ (putUvarint 1 ++ (Kind.delete.toByte :: putUvarint (2 ^ 64 - 1)))

theorem commands_decode_exactly_longKey :
    decodeCommand (encodeCommand
        { clientID := 7, seq := 2, batch := { baseSeq := 9, ops := [.put [1] [2], .delete []] } }) =
      .ok { clientID := 7, seq := 2, batch := { baseSeq := 9, ops := [.put [1] [2], .delete []] } } ∧
    Safe (readBatch longKey) (.error .corruptBatch) := by
  have hrange : ({ baseSeq := 9, ops := [.put [1] [2], .delete []] } : Batch).InRange := by
    refine ⟨by decide, by decide, ?_⟩
    simp [Op.InRange, rangeLE]
  have hrefused : decodeBatch longKey = .error .corruptBatch := by decide +kernel
  have hsafe := (commands_decode_exactly.right longKey (by decide +kernel)).left
  rw [hrefused] at hsafe
  exact ⟨commands_decode_exactly.left _ hrange, hsafe⟩

theorem encodeCommand_ne_nil (c : Command) : encodeCommand c ≠ [] := by
  intro h
  have hlen := congrArg List.length h
  rw [encodeCommand, List.length_append, putLE_length, List.length_nil] at hlen
  lia

end Engine
end Basalt
