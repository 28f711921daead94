import Basalt.Lib.Outcome
import Basalt.Manifest.VersionSet
import Basalt.Wal.Checksum

/-!
# The tail of a manifest

A replay applies the records of the manifest and then judges what is left
behind the last one.  A crash may leave a part of the record it interrupted, in
which every byte is either the one that was written or still zero.
-/

namespace Basalt
namespace Manifest

open Lib Base

def Recovered.past (r : Recovered) (num : Nat) : Recovered :=
  { r with nextFileNum := if num ≥ r.nextFileNum then num + 1 else r.nextFileNum }

theorem replay_of_records {d : Disk} {num : Nat} {buf t : Bytes} {ps : List Bytes}
    {r : Recovered} (hread : d.read num = some buf)
    (hrecords : Wal.framing.records buf = (ps, t))
    (hfold : ps.foldlM applyRecord {} = .ok r) :
    replay d num =
      (checkTail num (Wal.framing.frames ps).length t).bind fun _ => .ok (r.past num) := by
  have hsnd : (Wal.scanRecords applyRecord buf {}).2 = .ok r := by
    rw [Wal.scanRecords_snd, hrecords]
    exact hfold
  have hclean : (Wal.scanRecords applyRecord buf {}).1 = (Wal.framing.frames ps).length := by
    rw [Wal.scanRecords_fst hsnd, hrecords]
  have htail : buf.drop (Wal.framing.frames ps).length = t := by
    have hall := (Framing.frames_records (F := Wal.framing) buf).right
    rw [hrecords] at hall
    rw [← hall]
    exact List.drop_left
  rw [replay, hread]
  dsimp only
  rw [hsnd, hclean, htail]
  rfl

/-- What one crashed append of the record `r` can leave. -/
def TornAppend (r t : Bytes) : Prop :=
  t.length ≤ r.length ∧
    forall (i : Nat) (b : UInt8), t[i]? = some b -> b = 0 ∨ r[i]? = some b

/-- The tail does not reach past the end its own length field declares. -/
def ReachesEnd (t : Bytes) : Prop :=
  t.length < Wal.recordHeaderLen ∨
    t.length ≤ Wal.recordHeaderLen + getLE ((t.drop 4).take 4)

instance decidableReachesEnd (t : Bytes) : Decidable (ReachesEnd t) := by
  unfold ReachesEnd
  infer_instance

theorem checkTail_eq_ok (num clean : Nat) {t : Bytes} :
    checkTail num clean t = .ok () <-> ReachesEnd t := by
  unfold checkTail ReachesEnd
  split
  · rename_i h
    constructor
    · intro hok
      cases hok
    · intro hend
      lia
  · rename_i h
    constructor
    · intro _
      lia
    · intro _
      rfl

theorem checkTail_of_tail {t : Bytes} (h : Wal.framing.Tail t) (num clean : Nat) :
    checkTail num clean t = .ok () := by
  rcases h with rfl | ⟨p, hp, hpre, hne⟩
  · rfl
  · rw [checkTail, if_neg]
    rintro ⟨hlen, hlt⟩
    rcases hpre with ⟨u, hu⟩
    have hframe : t ++ u = Wal.frame p := hu
    have hu' : u ≠ [] := by
      intro hnil
      rw [hnil, List.append_nil] at hframe
      exact hne hframe
    have hsum := congrArg List.length hframe
    have hpos := List.length_pos_of_ne_nil hu'
    have hfield : (t.drop 4).take 4 = putLE 4 p.length := by
      have hdrop := Wal.drop_four_frame p []
      rw [List.append_nil, ← hframe, List.drop_append_of_le_length
        (Nat.le_trans (by decide) hlen)] at hdrop
      have htake := congrArg (List.take 4) hdrop
      rw [List.take_append_of_le_length, List.take_left' (putLE_length _ _)] at htake
      · exact htake
      · rw [List.length_drop]
        have h8 : 8 ≤ t.length := hlen
        lia
    rw [hfield, getLE_putLE (Nat.lt_succ_of_le hp)] at hlt
    rw [List.length_append, Wal.frame_length] at hsum
    lia

section Tail

variable {d : Disk} {num : Nat} {ps : List Bytes} {p t : Bytes} {base next : Recovered}

theorem replay_whole (hread : d.read num = some (Wal.framing.frames ps ++ t))
    (hvalid : forall q, q ∈ ps -> Wal.framing.valid q)
    (hbase : ps.foldlM applyRecord {} = .ok base) (hp : Wal.framing.valid p)
    (hnext : applyRecord base p = .ok next) (ht : t = Wal.framing.frame p) :
    replay d num = .ok (next.past num) := by
  have hall : forall q, q ∈ ps ++ [p] -> Wal.framing.valid q := by
    intro q hq
    rcases List.mem_append.mp hq with hq | hq
    · exact hvalid q hq
    · rw [List.mem_singleton.mp hq]
      exact hp
  have hbuf : Wal.framing.frames ps ++ t = Wal.framing.frames (ps ++ [p]) := by
    rw [ht]
    simp
  have hfold : (ps ++ [p]).foldlM applyRecord {} = .ok next := by
    rw [List.foldlM_append, hbase]
    exact bind_eq_ok.mpr ⟨base, rfl, bind_eq_ok.mpr ⟨next, hnext, rfl⟩⟩
  rw [hbuf] at hread
  rw [replay_of_records hread (Framing.records_frames hall) hfold]
  rfl

theorem replay_torn (hread : d.read num = some (Wal.framing.frames ps ++ t))
    (hvalid : forall q, q ∈ ps -> Wal.framing.valid q)
    (hbase : ps.foldlM applyRecord {} = .ok base) (ht : Wal.framing.next t = none) :
    replay d num = .ok (base.past num) <-> ReachesEnd t := by
  rw [replay_of_records hread (Framing.records_frames_rest hvalid ht) hbase,
    ← checkTail_eq_ok num (Wal.framing.frames ps).length]
  cases checkTail num (Wal.framing.frames ps).length t with
  | error e | ok u => simp [Except.bind]

theorem replay_zeros {n : Nat} (hn : Wal.recordHeaderLen < n)
    (hread : d.read num = some (Wal.framing.frames ps ++ List.replicate n 0))
    (hvalid : forall q, q ∈ ps -> Wal.framing.valid q)
    (hbase : ps.foldlM applyRecord {} = .ok base) :
    replay d num = .error (.notTornTail num (Wal.framing.frames ps).length) := by
  have hnone : Wal.framing.next (List.replicate n 0) = none :=
    Wal.nextRecord_zeros (Nat.le_of_lt hn)
  rw [replay_of_records hread (Framing.records_frames_rest hvalid hnone) hbase, checkTail,
    if_pos]
  · rfl
  · rw [List.length_replicate]
    constructor
    · exact Nat.le_of_lt hn
    · rw [Wal.replicate_header (Nat.le_of_lt hn), List.drop_left' List.length_replicate,
        List.take_left' List.length_replicate]
      exact hn

/-- A manifest whose last append crashed opens on the edits before it exactly
when the length bytes that reached the disk account for all of the tail. -/
theorem replay_tail (hread : d.read num = some (Wal.framing.frames ps ++ t))
    (hvalid : forall q, q ∈ ps -> Wal.framing.valid q)
    (hbase : ps.foldlM applyRecord {} = .ok base)
    (hp : Wal.framing.valid p) (hnext : applyRecord base p = .ok next)
    (hwhole : forall q rest, Wal.framing.valid q -> t = Wal.framing.frame q ++ rest ->
      t = Wal.framing.frame p) :
    replay d num =
        .ok ((if t = Wal.framing.frame p then next else base).past num) <->
      t = Wal.framing.frame p ∨ ReachesEnd t := by
  split
  · rename_i ht
    rw [replay_whole hread hvalid hbase hp hnext ht]
    simp [ht]
  · rename_i ht
    have hnone : Wal.framing.next t = none := by
      rw [Option.eq_none_iff_forall_ne_some]
      intro r hr
      rcases Wal.framing.next_sound hr with ⟨hq, heq⟩
      exact ht (hwhole r.1 r.2 hq heq)
    rw [replay_torn hread hvalid hbase hnone]
    simp [ht]

end Tail

/-!
A manifest of one edit, with a second one being appended.
-/

def firstEdit : VersionEdit := { lastSeq := some 5 }

def secondEdit : VersionEdit := { lastSeq := some 300 }

def crashed (t : Bytes) : Disk where
  current := some 1
  manifests := [{ num := 1, bytes := Wal.framing.frames [firstEdit.encode] ++ t }]

theorem read_crashed (t : Bytes) :
    (crashed t).read 1 = some (Wal.framing.frames [firstEdit.encode] ++ t) := rfl

theorem exists_edits :
    exists base next, [firstEdit.encode].foldlM applyRecord {} = .ok base ∧
      applyRecord base secondEdit.encode = .ok next := by
  have h : okWith ([firstEdit.encode].foldlM applyRecord {})
      (fun r => okWith (applyRecord r secondEdit.encode) fun _ => true) = true := by
    decide +kernel
  rcases exists_of_okWith h with ⟨base, hbase, hok⟩
  rcases exists_of_okWith hok with ⟨next, hnext, _⟩
  exact ⟨base, next, hbase, hnext⟩

theorem valid_firstEdit : forall q, q ∈ [firstEdit.encode] -> Wal.framing.valid q := by
  decide +kernel

theorem replay_tail_cut :
    exists base, [firstEdit.encode].foldlM applyRecord {} = .ok base ∧
      replay (crashed ((Wal.frame secondEdit.encode).take 9)) 1 = .ok (base.past 1) := by
  rcases exists_edits with ⟨base, next, hbase, hnext⟩
  have hnone : Wal.nextRecord ((Wal.frame secondEdit.encode).take 9) = none := by
    decide +kernel
  have hne : (Wal.frame secondEdit.encode).take 9 ≠ Wal.framing.frame secondEdit.encode := by
    decide +kernel
  have hend : ReachesEnd ((Wal.frame secondEdit.encode).take 9) := by decide +kernel
  have hvalid : Wal.framing.valid secondEdit.encode := by decide +kernel
  have h := (replay_tail (read_crashed _) valid_firstEdit hbase hvalid hnext (by
    intro q rest hq heq
    have hread : Wal.nextRecord (Wal.framing.frame q ++ rest) = some (q, rest) :=
      Wal.framing.next_frame hq
    rw [← heq, hnone] at hread
    cases hread)).mpr (Or.inr hend)
  rw [if_neg hne] at h
  exact ⟨base, hbase, h⟩

/-- The file has grown by nine bytes of the record, none of which is written:
the replay takes them for a damaged record. -/
theorem replay_zeros_refused :
    exists base next, [firstEdit.encode].foldlM applyRecord {} = .ok base ∧
      applyRecord base secondEdit.encode = .ok next ∧
      TornAppend (Wal.frame secondEdit.encode) (List.replicate 9 0) ∧
      replay (crashed (List.replicate 9 0)) 1 =
        .error (.notTornTail 1 (Wal.framing.frames [firstEdit.encode]).length) := by
  rcases exists_edits with ⟨base, next, hbase, hnext⟩
  refine ⟨base, next, hbase, hnext, ⟨by decide +kernel, ?_⟩, ?_⟩
  · intro i b hb
    exact Or.inl (List.mem_replicate.mp (List.mem_of_getElem? hb)).right
  · exact replay_zeros (by decide) (read_crashed _) valid_firstEdit hbase

end Manifest
end Basalt
