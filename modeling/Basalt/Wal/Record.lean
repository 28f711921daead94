import Basalt.Lib.Bytes
import Basalt.Lib.Framing

/-!
# Record framing

Every log file of the system is a sequence of framed records: a CRC-32C over
length and payload, the payload length, and the payload, all little-endian.
-/

namespace Basalt
namespace Wal

open Lib

/-!
## Checksum
-/

/-- The Castagnoli polynomial in reversed bit order. -/
def castagnoli : UInt32 := 0x82f63b78

def crcShift (crc : UInt32) : UInt32 :=
  if crc &&& 1 = 1 then (crc >>> 1) ^^^ castagnoli else crc >>> 1

def crcEntry (b : UInt8) : UInt32 :=
  crcShift (crcShift (crcShift (crcShift (crcShift (crcShift (crcShift (crcShift
    b.toUInt32)))))))

def crcByte (crc : UInt32) (b : UInt8) : UInt32 :=
  crcEntry (crc.toUInt8 ^^^ b) ^^^ (crc >>> 8)

def crcUpdate (crc : UInt32) (bs : Bytes) : UInt32 :=
  ~~~ (bs.foldl crcByte (~~~ crc))

def crcChecksum (bs : Bytes) : UInt32 :=
  crcUpdate 0 bs

-- The check value of CRC-32C, for the digits one to nine.
example : crcChecksum [49, 50, 51, 52, 53, 54, 55, 56, 57] = 0xe3069283 := by
  decide +kernel

/-!
## One record
-/

def recordHeaderLen : Nat := 8

def maxPayload : Nat := 0xffffffff

inductive Panic where
  | payloadTooLong
deriving DecidableEq, Repr

def Panic.message : Panic -> String
  | payloadTooLong => "wal: record payload exceeds u32 length field"

def recordCRC (length payload : Bytes) : UInt32 :=
  crcUpdate (crcChecksum length) payload

def frame (payload : Bytes) : Bytes :=
  putLE 4 (recordCRC (putLE 4 payload.length) payload).toNat ++
    (putLE 4 payload.length ++ payload)

def appendRecord (dst payload : Bytes) : Except Panic Bytes :=
  if payload.length > maxPayload then .error .payloadTooLong
  else .ok (dst ++ frame payload)

def nextRecord (buf : Bytes) : Option (Bytes × Bytes) :=
  if buf.length < recordHeaderLen then none
  else
    let wantCRC := getLE (buf.take 4)
    let length := getLE ((buf.drop 4).take 4)
    if length > buf.length - recordHeaderLen then none
    else
      let payload := (buf.drop recordHeaderLen).take length
      let c := recordCRC ((buf.drop 4).take 4) payload
      if c.toNat ≠ wantCRC then none
      else some (payload, buf.drop (recordHeaderLen + length))

@[simp]
theorem frame_length (payload : Bytes) :
    (frame payload).length = recordHeaderLen + payload.length := by
  simp [frame, recordHeaderLen]
  lia

theorem drop_four_frame (payload rest : Bytes) :
    (frame payload ++ rest).drop 4 = putLE 4 payload.length ++ (payload ++ rest) := by
  rw [frame, List.append_assoc, List.drop_left' (putLE_length _ _), List.append_assoc]

theorem take_four_frame (payload rest : Bytes) :
    (frame payload ++ rest).take 4 =
      putLE 4 (recordCRC (putLE 4 payload.length) payload).toNat := by
  rw [frame, List.append_assoc, List.take_left' (putLE_length _ _)]

theorem drop_header_frame (payload rest : Bytes) :
    (frame payload ++ rest).drop recordHeaderLen = payload ++ rest := by
  have h : (frame payload ++ rest).drop (4 + 4) = payload ++ rest := by
    rw [← List.drop_drop, drop_four_frame, List.drop_left' (putLE_length _ _)]
  exact h

theorem getLE_crc (c : UInt32) : getLE (putLE 4 c.toNat) = c.toNat :=
  getLE_putLE c.toNat_lt

theorem nextRecord_frame {payload : Bytes} (h : payload.length ≤ maxPayload)
    (rest : Bytes) : nextRecord (frame payload ++ rest) = some (payload, rest) := by
  have hlen : getLE (putLE 4 payload.length) = payload.length := by
    apply getLE_putLE
    exact Nat.lt_succ_of_le h
  have hfield : ((frame payload ++ rest).drop 4).take 4 = putLE 4 payload.length := by
    rw [drop_four_frame, List.take_left' (putLE_length _ _)]
  have hend : (frame payload ++ rest).drop (recordHeaderLen + payload.length) = rest := by
    rw [← List.drop_drop, drop_header_frame, List.drop_left' rfl]
  simp [nextRecord, hfield, hlen, hend, take_four_frame, drop_header_frame, getLE_crc]
  lia

/-- A proper beginning of a record is refused: either the header is short, or
the length it declares reaches past the end. -/
theorem nextRecord_torn {payload t : Bytes} (h : payload.length ≤ maxPayload)
    (ht : IsTorn t (frame payload)) : nextRecord t = none := by
  rcases ht with ⟨⟨rest, hrest⟩, hne⟩
  have hlen : t.length + rest.length = recordHeaderLen + payload.length := by
    rw [← List.length_append, hrest, frame_length]
  have hpos : 0 < rest.length := by
    apply List.length_pos_of_ne_nil
    intro hnil
    exact hne (by rw [← hrest, hnil, List.append_nil])
  unfold nextRecord
  split
  · rfl
  · rename_i hshort
    -- The length field lies within the part that was written.
    have hfield : (t.drop 4).take 4 = putLE 4 payload.length := by
      have hwhole : ((frame payload ++ []).drop 4).take 4 = putLE 4 payload.length := by
        rw [drop_four_frame, List.take_left' (putLE_length _ _)]
      rw [List.append_nil, ← hrest, List.drop_append_of_le_length (by
        simp only [recordHeaderLen] at hshort; lia)] at hwhole
      rwa [List.take_append_of_le_length (by
        simp only [recordHeaderLen] at hshort; simp; lia)] at hwhole
    have hdeclared : getLE (putLE 4 payload.length) = payload.length := by
      apply getLE_putLE
      exact Nat.lt_succ_of_le h
    rw [hfield, hdeclared]
    rw [if_pos (by lia)]

/-- A record that is read back is the frame of its payload. -/
theorem nextRecord_sound {buf payload rest : Bytes}
    (h : nextRecord buf = some (payload, rest)) :
    payload.length ≤ maxPayload ∧ buf = frame payload ++ rest := by
  unfold nextRecord at h
  split at h
  · cases h
  · rename_i hshort
    dsimp only at h
    split at h
    · cases h
    · rename_i hover
      split at h
      · cases h
      · rename_i hcrc
        cases h
        have hshort : 8 ≤ buf.length := Nat.le_of_not_lt hshort
        have hhead : (buf.take 4).length = 4 := by
          rw [List.length_take]
          lia
        have hfield : ((buf.drop 4).take 4).length = 4 := by
          rw [List.length_take, List.length_drop]
          lia
        have hpayload : ((buf.drop recordHeaderLen).take
            (getLE ((buf.drop 4).take 4))).length = getLE ((buf.drop 4).take 4) := by
          rw [List.length_take, List.length_drop]
          lia
        have hlt := getLE_lt ((buf.drop 4).take 4)
        rw [hfield] at hlt
        have hput : putLE 4 (getLE ((buf.drop 4).take 4)) = (buf.drop 4).take 4 := by
          have hback := putLE_getLE ((buf.drop 4).take 4)
          rwa [hfield] at hback
        have hputCRC : putLE 4 (getLE (buf.take 4)) = buf.take 4 := by
          have hback := putLE_getLE (buf.take 4)
          rwa [hhead] at hback
        constructor
        · rw [hpayload]
          exact Nat.le_of_lt_succ hlt
        · rw [frame, hpayload, hput, not_not.mp hcrc, hputCRC]
          have htail : (buf.drop 8).take (getLE ((buf.drop 4).take 4)) ++
              buf.drop (8 + getLE ((buf.drop 4).take 4)) = buf.drop 8 := by
            rw [← List.drop_drop, List.take_append_drop]
          have hbody : (buf.drop 4).take 4 ++ buf.drop 8 = buf.drop 4 := by
            have hdrop : (buf.drop 4).drop 4 = buf.drop (4 + 4) := List.drop_drop
            rw [← hdrop, List.take_append_drop]
          rw [List.append_assoc, List.append_assoc, recordHeaderLen, htail, hbody,
            List.take_append_drop]

def framing : Framing UInt8 where
  valid := fun p => p.length ≤ maxPayload
  frame := frame
  next := nextRecord
  next_frame := fun h => nextRecord_frame h _
  next_torn := nextRecord_torn
  next_sound := nextRecord_sound
  frame_ne_nil := fun p h => by
    have hlen := congrArg List.length h
    rw [frame_length] at hlen
    simp [recordHeaderLen] at hlen

instance decidableValid (p : Bytes) : Decidable (framing.valid p) :=
  inferInstanceAs (Decidable (p.length ≤ maxPayload))

theorem appendRecord_of_le {dst payload : Bytes} (h : payload.length ≤ maxPayload) :
    appendRecord dst payload = .ok (dst ++ frame payload) :=
  if_neg (Nat.not_lt.mpr h)

theorem appendRecord_ok {dst payload buf : Bytes}
    (h : appendRecord dst payload = .ok buf) :
    framing.valid payload ∧ buf = dst ++ frame payload := by
  rw [appendRecord] at h
  split at h
  · cases h
  · next hlen =>
      cases h
      exact ⟨Nat.le_of_not_lt hlen, rfl⟩

/-!
## Scanning a file
-/

section Scan

variable {σ ε : Type} (fn : σ -> Bytes -> Except ε σ)

/-- The loop of the scan, with what is left of the file and the state the
callback has built so far. -/
def scanLoop : Nat -> Bytes -> σ -> Bytes × Except ε σ
  | 0, rest, s => (rest, .ok s)
  | n + 1, rest, s =>
      if rest.length > 0 then
        match nextRecord rest with
        | none => (rest, .ok s)
        | some (payload, next) =>
            match fn s payload with
            | .error e => (rest, .error e)
            | .ok s' => scanLoop n next s'
      else (rest, .ok s)

def scanRecords (buf : Bytes) (s : σ) : Nat × Except ε σ :=
  let r := scanLoop fn buf.length buf s
  (buf.length - r.1.length, r.2)

variable {fn}

theorem scanLoop_snd (n : Nat) (buf : Bytes) (s : σ) :
    (scanLoop fn n buf s).2 = (framing.split n buf).1.foldlM fn s := by
  induction n generalizing buf s with
  | zero => rfl
  | succ n ih =>
      rw [scanLoop, Framing.split]
      cases hnext : nextRecord buf with
      | none =>
          have hread : framing.next buf = none := hnext
          rw [hread]
          split <;> rfl
      | some r =>
          have hread : framing.next buf = some r := hnext
          have hpos : buf.length > 0 := Nat.zero_lt_of_lt (Framing.next_length hread)
          rw [hread, if_pos hpos]
          dsimp only
          rw [List.foldlM_cons]
          cases hfn : fn s r.1 with
          | error e => rfl
          | ok s' => exact ih r.2 s'

theorem scanRecords_snd (buf : Bytes) (s : σ) :
    (scanRecords fn buf s).2 = (framing.records buf).1.foldlM fn s :=
  scanLoop_snd buf.length buf s

theorem scanLoop_fst {n : Nat} {buf : Bytes} {s s' : σ}
    (h : (scanLoop fn n buf s).2 = .ok s') :
    (scanLoop fn n buf s).1 = (framing.split n buf).2 := by
  induction n generalizing buf s with
  | zero => rfl
  | succ n ih =>
      rw [scanLoop] at h ⊢
      rw [Framing.split]
      cases hnext : nextRecord buf with
      | none =>
          have hread : framing.next buf = none := hnext
          rw [hread]
          split <;> rfl
      | some r =>
          have hread : framing.next buf = some r := hnext
          have hpos : buf.length > 0 := Nat.zero_lt_of_lt (Framing.next_length hread)
          rw [hnext, if_pos hpos] at h
          rw [hread, if_pos hpos]
          dsimp only at h ⊢
          cases hfn : fn s r.1 with
          | error e =>
              rw [hfn] at h
              cases h
          | ok mid =>
              rw [hfn] at h
              exact ih h

theorem scanRecords_fst {buf : Bytes} {s s' : σ}
    (h : (scanRecords fn buf s).2 = .ok s') :
    (scanRecords fn buf s).1 = (framing.frames (framing.records buf).1).length := by
  have hrest : (scanLoop fn buf.length buf s).1 = (framing.records buf).2 :=
    scanLoop_fst h
  have hall := congrArg List.length (Framing.frames_records (F := framing) buf).right
  rw [List.length_append] at hall
  show buf.length - (scanLoop fn buf.length buf s).1.length = _
  rw [hrest]
  lia

end Scan

end Wal
end Basalt
