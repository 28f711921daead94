import Mathlib.Data.List.Nodup
import Basalt.Wal.Record

/-!
# What the checksum detects

One step of the checksum can be undone when either the byte or the state
before it is known, so two strings of one length that differ in a single byte
never share a checksum.  A changed length field, though, also moves the end of
the region the checksum covers.
-/

namespace Basalt
namespace Wal

open Lib

/-!
## One byte of the checksum
-/

theorem nodup_crcEntry :
    ((List.range 256).map fun i => (crcEntry (UInt8.ofNat i)).toNat >>> 24).Nodup := by
  decide +kernel

theorem crcEntry_injective {a b : UInt8}
    (h : (crcEntry a).toNat >>> 24 = (crcEntry b).toNat >>> 24) : a = b := by
  have ha : a.toNat ∈ List.range 256 := List.mem_range.mpr a.toNat_lt
  have hb : b.toNat ∈ List.range 256 := List.mem_range.mpr b.toNat_lt
  have heq := List.inj_on_of_nodup_map nodup_crcEntry ha hb
  simp only [UInt8.ofNat_toNat] at heq
  exact UInt8.toNat_inj.mp (heq h)

theorem crcByte_shiftRight (crc : UInt32) (b : UInt8) :
    (crcByte crc b).toNat >>> 24 = (crcEntry (crc.toUInt8 ^^^ b)).toNat >>> 24 := by
  have hlow : crc.toNat >>> 8 >>> 24 = 0 := by
    rw [← Nat.shiftRight_add, Nat.shiftRight_eq_div_pow]
    exact Nat.div_eq_of_lt crc.toNat_lt
  have hshift : (crc >>> 8).toNat = crc.toNat >>> 8 := by simp
  rw [crcByte, UInt32.toNat_xor, Nat.shiftRight_xor_distrib, hshift, hlow, Nat.xor_zero]

theorem crcByte_eq {crc crc' : UInt32} {b b' : UInt8}
    (h : crcByte crc b = crcByte crc' b') :
    crc.toUInt8 ^^^ b = crc'.toUInt8 ^^^ b' ∧ crc.toNat / 256 = crc'.toNat / 256 := by
  have hindex : crc.toUInt8 ^^^ b = crc'.toUInt8 ^^^ b' := by
    apply crcEntry_injective
    rw [← crcByte_shiftRight, ← crcByte_shiftRight, h]
  have hupper : crc >>> 8 = crc' >>> 8 := by
    unfold crcByte at h
    rw [hindex] at h
    exact (UInt32.xor_right_inj _).mp h
  have hnat := congrArg UInt32.toNat hupper
  simp only [UInt32.toNat_shiftRight] at hnat
  exact ⟨hindex, by simpa [Nat.shiftRight_eq_div_pow] using hnat⟩

theorem crcByte_injective_state {crc crc' : UInt32} {b : UInt8}
    (h : crcByte crc b = crcByte crc' b) : crc = crc' := by
  rcases crcByte_eq h with ⟨hindex, hupper⟩
  have hlow := congrArg UInt8.toNat ((UInt8.xor_left_inj b).mp hindex)
  simp only [UInt32.toNat_toUInt8] at hlow
  apply UInt32.toNat_inj.mp
  lia

theorem crcByte_injective_byte {crc : UInt32} {b b' : UInt8}
    (h : crcByte crc b = crcByte crc b') : b = b' :=
  (UInt8.xor_right_inj _).mp (crcByte_eq h).left

theorem foldl_crcByte_injective (bs : Bytes) {crc crc' : UInt32}
    (h : bs.foldl crcByte crc = bs.foldl crcByte crc') : crc = crc' := by
  induction bs generalizing crc crc' with
  | nil => exact h
  | cons b bs ih => exact crcByte_injective_state (ih h)

theorem crcUpdate_append (crc : UInt32) (bs cs : Bytes) :
    crcUpdate crc (bs ++ cs) = crcUpdate (crcUpdate crc bs) cs := by
  simp [crcUpdate]

theorem recordCRC_eq (length payload : Bytes) :
    recordCRC length payload = crcChecksum (length ++ payload) := by
  rw [crcChecksum, crcUpdate_append]
  rfl

/-- A single changed byte changes the checksum. -/
theorem crcChecksum_injective {pre post : Bytes} {b b' : UInt8}
    (h : crcChecksum (pre ++ b :: post) = crcChecksum (pre ++ b' :: post)) : b = b' := by
  unfold crcChecksum crcUpdate at h
  have hfold := (UInt32.not_inj).mp h
  rw [List.foldl_append, List.foldl_append, List.foldl_cons, List.foldl_cons] at hfold
  exact crcByte_injective_byte (foldl_crcByte_injective post hfold)

/-!
## One changed byte in a record
-/

theorem nextRecord_eq_none {head field body : Bytes} (hhead : head.length = 4)
    (hfield : field.length = 4) :
    nextRecord (head ++ (field ++ body)) = none <->
      ¬ (getLE field ≤ body.length ∧
        (crcChecksum (field ++ body.take (getLE field))).toNat = getLE head) := by
  have htake : (head ++ (field ++ body)).take 4 = head := List.take_left' hhead
  have hdrop : (head ++ (field ++ body)).drop 4 = field ++ body := List.drop_left' hhead
  have hbody : (head ++ (field ++ body)).drop recordHeaderLen = body := by
    show (head ++ (field ++ body)).drop (4 + 4) = body
    rw [← List.drop_drop, hdrop, List.drop_left' hfield]
  have hlen : (head ++ (field ++ body)).length = recordHeaderLen + body.length := by
    simp [hhead, hfield, recordHeaderLen]
    lia
  unfold nextRecord
  rw [htake, hdrop, List.take_left' hfield, hbody, hlen, if_neg (by lia),
    Nat.add_sub_cancel_left]
  dsimp only
  rw [recordCRC_eq]
  split
  · rename_i hover
    constructor
    · intro _ hboth
      exact Nat.not_le_of_lt hover hboth.left
    · intro _
      rfl
  · rename_i hfits
    rw [ite_eq_left_iff]
    constructor
    · intro h hboth
      cases h (not_not.mpr hboth.right)
    · intro h heq
      exact absurd ⟨Nat.le_of_not_lt hfits, not_not.mp heq⟩ h

theorem replicate_header {n : Nat} (h : recordHeaderLen ≤ n) :
    (List.replicate n 0 : Bytes) =
      List.replicate 4 0 ++ (List.replicate 4 0 ++ List.replicate (n - 8) 0) := by
  rw [List.replicate_append_replicate, List.replicate_append_replicate]
  congr 1
  rw [recordHeaderLen] at h
  lia

theorem nextRecord_zeros {n : Nat} (h : recordHeaderLen ≤ n) :
    nextRecord (List.replicate n 0) = none := by
  have hhead : (List.replicate 4 0 : Bytes).length = 4 := rfl
  have hempty : (crcChecksum (List.replicate 4 0)).toNat ≠ 0 := by decide +kernel
  rw [replicate_header h, nextRecord_eq_none hhead hhead]
  intro ⟨_, hcrc⟩
  exact hempty hcrc

theorem set_frame_crc {payload : Bytes} {pos : Nat} (h : pos < 4) (b : UInt8)
    (rest : Bytes) :
    (frame payload).set pos b ++ rest =
      (putLE 4 (recordCRC (putLE 4 payload.length) payload).toNat).set pos b ++
        (putLE 4 payload.length ++ (payload ++ rest)) := by
  rw [frame, List.set_append, if_pos (by simpa using h)]
  simp only [List.append_assoc]

theorem set_frame_length {payload : Bytes} {pos : Nat} (h : 4 ≤ pos) (h' : pos < 8)
    (b : UInt8) (rest : Bytes) :
    (frame payload).set pos b ++ rest =
      putLE 4 (recordCRC (putLE 4 payload.length) payload).toNat ++
        ((putLE 4 payload.length).set (pos - 4) b ++ (payload ++ rest)) := by
  rw [frame, List.set_append, if_neg (by simpa using h), putLE_length, List.set_append,
    if_pos (by simp; lia)]
  simp only [List.append_assoc]

theorem set_frame_payload {payload : Bytes} {pos : Nat} (h : 8 ≤ pos) (b : UInt8)
    (rest : Bytes) :
    (frame payload).set pos b ++ rest =
      putLE 4 (recordCRC (putLE 4 payload.length) payload).toNat ++
        (putLE 4 payload.length ++ (payload.set (pos - 8) b ++ rest)) := by
  rw [frame, List.set_append, if_neg (by simp; lia), putLE_length, List.set_append,
    if_neg (by simp; lia), putLE_length, Nat.sub_sub]
  simp only [List.append_assoc]

/-- The byte `b` at `pos` lies in the length field, and the length this
declares frames other bytes of the file that have the checksum of the record. -/
def Reframes (payload rest : Bytes) (pos : Nat) (b : UInt8) : Prop :=
  let field := (putLE 4 payload.length).set (pos - 4) b
  4 ≤ pos ∧ pos < 8 ∧ getLE field ≤ (payload ++ rest).length ∧
    crcChecksum (field ++ (payload ++ rest).take (getLE field)) =
      crcChecksum (putLE 4 payload.length ++ payload)

instance decidableReframes (payload rest : Bytes) (pos : Nat) (b : UInt8) :
    Decidable (Reframes payload rest pos b) := by
  unfold Reframes
  infer_instance

theorem nextRecord_set_length {payload : Bytes} {pos : Nat} (hpos : 4 ≤ pos)
    (hpos' : pos < 8) (b : UInt8) (rest : Bytes) :
    nextRecord ((frame payload).set pos b ++ rest) = none <->
      ¬ Reframes payload rest pos b := by
  rw [set_frame_length hpos hpos', nextRecord_eq_none (by simp) (by simp), getLE_crc,
    recordCRC_eq, UInt32.toNat_inj]
  apply not_congr
  unfold Reframes
  constructor
  · intro h
    exact ⟨hpos, hpos', h⟩
  · intro h
    exact h.right.right

section Corrupted

variable {payload : Bytes} (hlen : payload.length ≤ maxPayload) {pos : Nat} {b : UInt8}
  (rest : Bytes)

include hlen

theorem getLE_length : getLE (putLE 4 payload.length) = payload.length :=
  getLE_putLE (Nat.lt_succ_of_le hlen)

theorem nextRecord_set_crc (hpos : pos < 4) (hb : (frame payload)[pos]? ≠ some b) :
    nextRecord ((frame payload).set pos b ++ rest) = none := by
  rw [set_frame_crc hpos, nextRecord_eq_none (by simp) (by simp), getLE_length hlen,
    List.take_left' rfl, ← recordCRC_eq]
  intro ⟨_, hcrc⟩
  apply hb
  have hback := putLE_getLE
    ((putLE 4 (recordCRC (putLE 4 payload.length) payload).toNat).set pos b)
  rw [← hcrc, List.length_set, putLE_length] at hback
  rw [frame, List.getElem?_append_left (by simpa using hpos), hback,
    List.getElem?_set_self (by simpa using hpos)]

theorem nextRecord_set_payload (hpos : 8 ≤ pos) (hend : pos < (frame payload).length)
    (hb : (frame payload)[pos]? ≠ some b) :
    nextRecord ((frame payload).set pos b ++ rest) = none := by
  rw [frame_length, recordHeaderLen] at hend
  have hi : pos - 8 < payload.length := by lia
  rw [set_frame_payload hpos, nextRecord_eq_none (by simp) (by simp), getLE_length hlen,
    List.take_left' (by simp), getLE_crc, recordCRC_eq]
  intro ⟨_, hcrc⟩
  apply hb
  have hat : (frame payload)[pos]? = payload[pos - 8]? := by
    rw [frame, List.getElem?_append_right (by simp; lia), putLE_length,
      List.getElem?_append_right (by simp; lia), putLE_length, Nat.sub_sub]
  have hset : payload.set (pos - 8) b =
      payload.take (pos - 8) ++ b :: payload.drop (pos - 8 + 1) :=
    List.set_eq_take_append_cons_drop.trans (if_pos hi)
  have hself : payload =
      payload.take (pos - 8) ++ payload[pos - 8] :: payload.drop (pos - 8 + 1) := by
    rw [← List.drop_eq_getElem_cons hi, List.take_append_drop]
  have hsum : crcChecksum (putLE 4 payload.length ++ payload.take (pos - 8) ++
        b :: payload.drop (pos - 8 + 1)) =
      crcChecksum (putLE 4 payload.length ++ payload.take (pos - 8) ++
        payload[pos - 8] :: payload.drop (pos - 8 + 1)) := by
    rw [List.append_assoc, ← hset, List.append_assoc, ← hself]
    exact UInt32.toNat_inj.mp hcrc
  rw [hat, List.getElem?_eq_getElem hi, crcChecksum_injective hsum]

end Corrupted

/-- A record with one changed byte is refused, unless the byte belongs to the
length field and the record is reframed onto bytes of the same checksum. -/
theorem nextRecord_corrupted {payload record : Bytes}
    (h : appendRecord [] payload = .ok record) {pos : Nat} (hpos : pos < record.length)
    {b : UInt8} (hb : record[pos]? ≠ some b) (rest : Bytes) :
    nextRecord (record.set pos b ++ rest) = none <-> ¬ Reframes payload rest pos b := by
  rcases appendRecord_ok h with ⟨hlen, rfl⟩
  rw [List.nil_append] at hpos hb ⊢
  rcases Nat.lt_or_ge pos 4 with hcrc | hcrc
  · constructor
    · intro _ hre
      exact Nat.not_le_of_lt hcrc hre.left
    · intro _
      exact nextRecord_set_crc hlen rest hcrc hb
  · rcases Nat.lt_or_ge pos 8 with hfield | hfield
    · exact nextRecord_set_length hcrc hfield b rest
    · constructor
      · intro _ hre
        exact Nat.not_le_of_lt hre.right.left hfield
      · intro _
        exact nextRecord_set_payload hlen rest hfield hpos hb

/-- A changed payload byte in front of further bytes. -/
theorem nextRecord_corrupted_payload :
    nextRecord ((frame [7, 1]).set 8 9 ++ [5]) = none := by
  have h : appendRecord [] [7, 1] = .ok (frame [7, 1]) := by decide +kernel
  apply (nextRecord_corrupted h (by decide +kernel) (by decide +kernel) [5]).mpr
  intro hre
  exact absurd hre.right.left (by decide)

/-- An empty record whose length becomes four takes the next four bytes for
its payload. -/
theorem nextRecord_reframed :
    exists record : Bytes, appendRecord [] [] = .ok record ∧
      record[4]? = some 0 ∧
      nextRecord (record.set 4 4 ++ [52, 122, 69, 51]) = some ([52, 122, 69, 51], []) := by
  exact ⟨frame [], by decide +kernel⟩

end Wal
end Basalt
