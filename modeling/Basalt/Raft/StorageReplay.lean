import Basalt.Raft.Storage

/-!
# What a state file says

The callers of the storage think of it as a hard state, a snapshot boundary
and a log that is cut at the first index of every run of entries written to
it.  The file expresses a cut by a truncation record, by entries that overwrite
stored ones, or by a new file; its replay gives the state the callers think of.
-/

namespace Basalt
namespace Raft

open Lib

inductive Save where
  | hardState (hs : HardState)
  | entries (ents : List Entry)
  | rewrite (hs : HardState) (snapIndex snapTerm : Nat) (ents : List Entry)
deriving DecidableEq, Repr

def Storage.save (s : Storage) : Save -> Except Panic Storage
  | .hardState hs => s.saveHardState hs
  | .entries ents => s.appendEntries ents
  | .rewrite hs snapIndex snapTerm ents => s.rewrite hs snapIndex snapTerm ents

/-- The log, cut at the first index of a run, with the run behind it. -/
def spliced (log : List Entry) : List Entry -> List Entry
  | [] => log
  | e :: rest => log.filter (fun x => x.index < e.index) ++ e :: rest

def Recovered.saved (rec : Recovered) : Save -> Recovered
  | .hardState hs => { rec with hardState := hs }
  | .entries ents => { rec with entries := spliced rec.entries ents }
  | .rewrite hs snapIndex snapTerm ents =>
      { hardState := hs, snapIndex := snapIndex, snapTerm := snapTerm, entries := ents }

namespace Save

def InRange : Save -> Prop
  | hardState hs => hs.InRange
  | entries ents => forall e, e ∈ ents -> e.InRange
  | rewrite hs snapIndex snapTerm ents =>
      hs.InRange ∧ snapIndex < rangeLE 8 ∧ snapTerm < rangeLE 8 ∧
        forall e, e ∈ ents -> e.InRange

/-- A run of entries starts above the boundary and at most one past the last
stored index; a new file continues its boundary. -/
def Continues (rec : Recovered) : Save -> Prop
  | hardState _ => True
  | entries ents =>
      exists first, rec.snapIndex < first ∧ first ≤ rec.snapIndex + rec.entries.length + 1 ∧
        NumberedFrom first ents
  | rewrite _ snapIndex _ ents => NumberedFrom (snapIndex + 1) ents

instance (c : Save) : Decidable c.InRange := by
  cases c with
  | hardState hs => exact inferInstanceAs (Decidable (_ ∧ _ ∧ _))
  | entries ents => exact inferInstanceAs (Decidable (forall e, e ∈ ents -> _ ∧ _))
  | rewrite hs snapIndex snapTerm ents =>
      exact inferInstanceAs (Decidable ((_ ∧ _ ∧ _) ∧ _ ∧ _ ∧ forall e, e ∈ ents -> _ ∧ _))

theorem continues_cons {rec : Recovered} {e : Entry} {ents : List Entry} :
    (entries (e :: ents)).Continues rec <-> rec.snapIndex < e.index ∧
      e.index ≤ rec.snapIndex + rec.entries.length + 1 ∧ NumberedFrom e.index (e :: ents) := by
  constructor
  · rintro ⟨first, hlo, hhi, hnum⟩
    have hindex : e.index = first := hnum 0 e rfl
    rw [hindex]
    exact ⟨hlo, hhi, hnum⟩
  · rintro ⟨hlo, hhi, hnum⟩
    exact ⟨e.index, hlo, hhi, hnum⟩

theorem continues_nil (rec : Recovered) : (entries []).Continues rec :=
  ⟨rec.snapIndex + 1, Nat.lt_succ_self _, by lia, NumberedFrom.nil _⟩

instance (rec : Recovered) (c : Save) : Decidable (c.Continues rec) := by
  cases c with
  | hardState hs => exact .isTrue trivial
  | entries ents =>
      cases ents with
      | nil => exact .isTrue (continues_nil rec)
      | cons e ents => exact decidable_of_iff' _ continues_cons
  | rewrite hs snapIndex snapTerm ents =>
      exact inferInstanceAs (Decidable (NumberedFrom (snapIndex + 1) ents))

/-- The length field can describe the record of the entries. -/
def Fits : Save -> Prop
  | hardState _ => True
  | entries ents => Wal.framing.valid (recEntries :: encodeEntries ents)
  | rewrite _ _ _ ents => Wal.framing.valid (recEntries :: encodeEntries ents)

instance (c : Save) : Decidable c.Fits := by
  cases c with
  | hardState hs => exact .isTrue trivial
  | entries ents | rewrite hs snapIndex snapTerm ents => exact Wal.decidableValid _

end Save

def Continuous : Recovered -> List Save -> Prop
  | _, [] => True
  | rec, c :: cs => c.Continues rec ∧ Continuous (rec.saved c) cs

instance : (rec : Recovered) -> (cs : List Save) -> Decidable (Continuous rec cs)
  | _, [] => .isTrue trivial
  | rec, c :: cs =>
      have := instDecidableContinuous (rec.saved c) cs
      inferInstanceAs (Decidable (_ ∧ _))

/-!
## The cut
-/

theorem NumberedFrom.filter_lt {first : Nat} {ents : List Entry} (h : NumberedFrom first ents)
    (k : Nat) : (ents.filter fun x => x.index < first + k) = ents.take k := by
  induction ents generalizing first k with
  | nil => rw [List.take_nil, List.filter_nil]
  | cons e ents ih =>
      have hindex : e.index = first := h 0 e rfl
      cases k with
      | zero =>
          rw [List.take_zero]
          apply List.filter_eq_nil_iff.mpr
          intro x hx hlt
          rcases List.mem_iff_getElem?.mp hx with ⟨i, hi⟩
          have hnum := h i x hi
          have hless := of_decide_eq_true hlt
          lia
      | succ k =>
          have hrest := ih h.tail k
          have hsum : first + 1 + k = first + (k + 1) := by lia
          rw [hsum] at hrest
          rw [List.filter_cons_of_pos (by simp [hindex]), List.take_succ_cons, hrest]

theorem spliced_eq {first k : Nat} {log ents : List Entry} (h : NumberedFrom first log)
    (hents : NumberedFrom (first + k) ents) (hne : ents ≠ []) :
    spliced log ents = log.take k ++ ents := by
  cases ents with
  | nil => exact absurd rfl hne
  | cons e rest =>
      have hindex : e.index = first + k := hents 0 e rfl
      rw [spliced, hindex, h.filter_lt]

/-!
## One call
-/

namespace Storage

variable {s : Storage} {rec : Recovered}

theorem appendRecord_of_valid {tag : UInt8} {body : Bytes}
    (h : Wal.framing.valid (tag :: body)) : exists s', s.appendRecord tag body = .ok s' := by
  unfold appendRecord
  rw [Wal.appendRecord_of_le h]
  exact ⟨_, rfl⟩

theorem appendRecord_of_not_valid {tag : UInt8} {body : Bytes}
    (h : ¬ Wal.framing.valid (tag :: body)) :
    s.appendRecord tag body = .error (.wal .payloadTooLong) := by
  have hlong : (tag :: body).length > Wal.maxPayload := Nat.lt_of_not_le h
  unfold appendRecord Wal.appendRecord
  rw [if_pos hlong]
  rfl

theorem valid_truncate (index : Nat) : Wal.framing.valid (recTruncate :: putLE 8 index) := by
  show (recTruncate :: putLE 8 index).length ≤ Wal.maxPayload
  rw [List.length_cons, putLE_length]
  decide

theorem valid_hardState (hs : HardState) :
    Wal.framing.valid (recHardState :: hardStateBody hs) := by
  have hlen : (hardStateBody hs).length = 24 := by simp [hardStateBody]
  show (recHardState :: hardStateBody hs).length ≤ Wal.maxPayload
  rw [List.length_cons, hlen]
  decide

theorem valid_compact (snapIndex snapTerm : Nat) :
    Wal.framing.valid (recCompact :: compactBody snapIndex snapTerm) := by
  have hlen : (compactBody snapIndex snapTerm).length = 16 := by simp [compactBody]
  show (recCompact :: compactBody snapIndex snapTerm).length ≤ Wal.maxPayload
  rw [List.length_cons, hlen]
  decide

theorem truncateFor_ok (s : Storage) (index : Nat) : exists s', s.truncateFor index = .ok s' := by
  unfold truncateFor
  split
  · exact appendRecord_of_valid (valid_truncate index)
  · exact ⟨s, rfl⟩

theorem appendEntries_of_valid {ents : List Entry}
    (h : Wal.framing.valid (recEntries :: encodeEntries ents)) :
    exists s', s.appendEntries ents = .ok s' := by
  cases ents with
  | nil => exact ⟨s, rfl⟩
  | cons e rest =>
      rcases truncateFor_ok s e.index with ⟨mid, hmid⟩
      rcases appendRecord_of_valid (s := mid) h with ⟨last, hlast⟩
      exact ⟨_, bind_eq_ok.mpr ⟨mid, hmid, bind_eq_ok.mpr ⟨last, hlast, rfl⟩⟩⟩

theorem appendEntries_of_not_valid {ents : List Entry}
    (h : ¬ Wal.framing.valid (recEntries :: encodeEntries ents)) :
    s.appendEntries ents = .error (.wal .payloadTooLong) := by
  cases ents with
  | nil => exact absurd (by decide) h
  | cons e rest =>
      rcases truncateFor_ok s e.index with ⟨mid, hmid⟩
      rw [appendEntries, bind_of_ok hmid, appendRecord_of_not_valid h]
      rfl

theorem image_eq (hs : HardState) (snapIndex snapTerm : Nat) (ents : List Entry) :
    exists buf, image hs snapIndex snapTerm ents =
      if ents.length > 0 then Wal.appendRecord buf (recEntries :: encodeEntries ents)
      else .ok buf := by
  rw [image, bind_of_ok (Wal.appendRecord_of_le (valid_compact snapIndex snapTerm)),
    bind_of_ok (Wal.appendRecord_of_le (valid_hardState hs))]
  exact ⟨_, rfl⟩

theorem rewrite_of_valid {hs : HardState} {snapIndex snapTerm : Nat} {ents : List Entry}
    (h : Wal.framing.valid (recEntries :: encodeEntries ents)) :
    exists s', s.rewrite hs snapIndex snapTerm ents = .ok s' := by
  rcases image_eq hs snapIndex snapTerm ents with ⟨buf, hbuf⟩
  unfold rewrite
  rw [hbuf, Wal.appendRecord_of_le h]
  split
  · exact ⟨_, rfl⟩
  · exact ⟨_, rfl⟩

theorem rewrite_of_not_valid {hs : HardState} {snapIndex snapTerm : Nat} {ents : List Entry}
    (h : ¬ Wal.framing.valid (recEntries :: encodeEntries ents)) :
    s.rewrite hs snapIndex snapTerm ents = .error (.wal .payloadTooLong) := by
  have hlong : (recEntries :: encodeEntries ents).length > Wal.maxPayload := Nat.lt_of_not_le h
  have hpos : ents.length > 0 := by
    apply Nat.pos_of_ne_zero
    intro hzero
    rw [List.eq_nil_of_length_eq_zero hzero] at h
    exact h (by decide)
  rcases image_eq hs snapIndex snapTerm ents with ⟨buf, hbuf⟩
  unfold rewrite
  rw [hbuf, if_pos hpos, Wal.appendRecord, if_pos hlong]
  rfl

theorem save_of_fits {c : Save} (h : c.Fits) : exists s', s.save c = .ok s' := by
  cases c with
  | hardState hs => exact appendRecord_of_valid (valid_hardState hs)
  | entries ents => exact appendEntries_of_valid h
  | rewrite hs snapIndex snapTerm ents => exact rewrite_of_valid (s := s) h

theorem save_of_not_fits {c : Save} (h : ¬ c.Fits) :
    s.save c = .error (.wal .payloadTooLong) := by
  cases c with
  | hardState hs => exact absurd trivial h
  | entries ents => exact appendEntries_of_not_valid h
  | rewrite hs snapIndex snapTerm ents => exact rewrite_of_not_valid (s := s) h

theorem Holds.numbered (h : s.Holds rec) : rec.Numbered :=
  replay_numbered h.describes.replay_eq

/-- A call that returns leaves a file that says what the call means. -/
theorem Holds.save {s' : Storage} {c : Save} (h : s.Holds rec) (hrange : c.InRange)
    (hcont : c.Continues rec) (hsave : s.save c = .ok s') : s'.Holds (rec.saved c) := by
  cases c with
  | hardState hs => exact h.saveHardState hrange hsave
  | entries ents =>
      rcases hcont with ⟨first, hlo, hhi, hnum⟩
      by_cases hne : ents = []
      · subst hne
        cases hsave
        exact h
      · have hfirst : rec.snapIndex + 1 + (first - rec.snapIndex - 1) = first := by lia
        have hpos : rec.snapIndex + (first - rec.snapIndex - 1) + 1 = first := by lia
        have hlog : spliced rec.entries ents =
            rec.entries.take (first - rec.snapIndex - 1) ++ ents :=
          spliced_eq h.numbered (hfirst.symm ▸ hnum) hne
        show s'.Holds { rec with entries := spliced rec.entries ents }
        rw [hlog]
        exact h.appendEntries (by lia) (hpos.symm ▸ hnum) hrange hne hsave
  | rewrite hs snapIndex snapTerm ents =>
      rcases hrange with ⟨hhard, hindex, hterm, hents⟩
      exact Holds.rewrite (s := s) hhard hindex hterm hents hcont hsave

/-!
## Sequences of calls
-/

theorem Holds.saves {calls : List Save} (h : s.Holds rec)
    (hrange : forall c, c ∈ calls -> c.InRange) (hcont : Continuous rec calls)
    (hfits : forall c, c ∈ calls -> c.Fits) :
    exists s', calls.foldlM Storage.save s = .ok s' ∧
      s'.Holds (calls.foldl Recovered.saved rec) := by
  induction calls generalizing s rec with
  | nil => exact ⟨s, rfl, h⟩
  | cons c calls ih =>
      rcases save_of_fits (s := s) (hfits c List.mem_cons_self) with ⟨mid, hmid⟩
      have hmidHolds := h.save (hrange c List.mem_cons_self) hcont.left hmid
      rcases ih hmidHolds (fun d hd => hrange d (List.mem_cons_of_mem c hd)) hcont.right
        (fun d hd => hfits d (List.mem_cons_of_mem c hd)) with ⟨s', hs', hholds⟩
      exact ⟨s', bind_eq_ok.mpr ⟨mid, hmid, hs'⟩, hholds⟩

/-- The first record that is too long ends the process. -/
theorem saves_of_not_fits {calls : List Save} (h : exists c, c ∈ calls ∧ ¬ c.Fits) :
    calls.foldlM Storage.save s = .error (.wal .payloadTooLong) := by
  induction calls generalizing s with
  | nil =>
      rcases h with ⟨c, hc, _⟩
      cases hc
  | cons c calls ih =>
      rw [List.foldlM_cons]
      by_cases hfits : c.Fits
      · rcases save_of_fits (s := s) hfits with ⟨mid, hmid⟩
        rcases h with ⟨d, hd, hnot⟩
        rcases List.mem_cons.mp hd with rfl | hd
        · exact absurd hfits hnot
        · rw [hmid]
          exact ih ⟨d, hd, hnot⟩
      · rw [save_of_not_fits hfits]
        rfl

end Storage

/-- The file that a sequence of calls writes to an empty storage replays to the
last hard state, the last boundary, and the log cut at the first index of every
run.  The calls return as long as the length field can describe their records. -/
theorem replay_saves (calls : List Save) (hrange : forall c, c ∈ calls -> c.InRange)
    (hcont : Continuous {} calls) :
    ((forall c, c ∈ calls -> c.Fits) -> exists s, calls.foldlM Storage.save {} = .ok s ∧
      replay s.file = .ok (calls.foldl Recovered.saved {})) ∧
    ((exists c, c ∈ calls ∧ ¬ c.Fits) ->
      calls.foldlM Storage.save {} = .error (.wal .payloadTooLong)) := by
  have hempty : ({} : Storage).Holds {} := ⟨Describes.nil, rfl⟩
  constructor
  · intro hfits
    rcases hempty.saves hrange hcont hfits with ⟨s, hs, hholds⟩
    exact ⟨s, hs, hholds.describes.replay_eq⟩
  · intro hlong
    exact Storage.saves_of_not_fits hlong

/-- A run that is overwritten from index 2 on, a new file with boundary 1, and
another run that overwrites its end. -/
def overlapping : List Save :=
  [.entries [{ index := 1, term := 1, data := [7] }, { index := 2, term := 1 }],
   .hardState { term := 2, vote := 3, commit := 1 },
   .entries [{ index := 2, term := 2, data := [8] }, { index := 3, term := 2 }],
   .rewrite { term := 2, vote := 3, commit := 2 } 1 1
     [{ index := 2, term := 2, data := [8] }, { index := 3, term := 2 }],
   .entries [{ type := .confChange, index := 3, term := 4, data := [9] }]]

theorem replay_overlapping :
    exists s, overlapping.foldlM Storage.save {} = .ok s ∧
      replay s.file = .ok
        { hardState := { term := 2, vote := 3, commit := 2 }
          snapIndex := 1
          snapTerm := 1
          entries :=
            [{ index := 2, term := 2, data := [8] },
             { type := .confChange, index := 3, term := 4, data := [9] }] } := by
  have hrange : forall c, c ∈ overlapping -> c.InRange := by
    simp [overlapping, Save.InRange, HardState.InRange, Entry.InRange, rangeLE]
  have hcont : Continuous {} overlapping := by
    refine ⟨⟨1, by decide, by decide, by decide⟩, trivial, ⟨2, by decide, by decide, by decide⟩,
      ?_, ⟨3, by decide, by decide, by decide⟩, trivial⟩
    show NumberedFrom 2 _
    decide
  have hfits : forall c, c ∈ overlapping -> c.Fits := by decide
  exact (replay_saves overlapping hrange hcont).left hfits

def saveData (data : Bytes) : List Save :=
  [.entries [{ index := 1, term := 1, data := data }]]

theorem saves_panic_of_length {data : Bytes} (h : data.length = 4294967296) :
    (forall c, c ∈ saveData data -> c.InRange) ∧ Continuous {} (saveData data) ∧
      (saveData data).foldlM Storage.save {} = .error (.wal .payloadTooLong) := by
  refine ⟨?_, ⟨⟨1, Nat.zero_lt_one, Nat.le_refl 1, ?_⟩, trivial⟩, ?_⟩
  · intro c hc
    rw [List.mem_singleton.mp hc]
    intro e he
    rw [List.mem_singleton.mp he]
    exact ⟨(by decide : 1 < rangeLE 8), (by decide : 1 < rangeLE 8)⟩
  · intro i e hi
    cases i with
    | zero =>
        cases hi
        rfl
    | succ i => cases hi
  · apply Storage.saves_of_not_fits
    refine ⟨_, List.mem_cons_self, fun hfits => ?_⟩
    have hlen := (length_le_encodeEntries [{ index := 1, term := 1, data := data }]).right _
      List.mem_cons_self
    have hfits : (recEntries :: encodeEntries [{ index := 1, term := 1, data := data }]).length ≤
      Wal.maxPayload := hfits
    rw [List.length_cons, Wal.maxPayload] at hfits
    rw [h] at hlen
    lia

/-- An entry with 4 GiB of data ends the process: the length field cannot describe its
record. -/
theorem saves_panic_vast :
    (forall c, c ∈ saveData (List.replicate 4294967296 0) -> c.InRange) ∧
      Continuous {} (saveData (List.replicate 4294967296 0)) ∧
      (saveData (List.replicate 4294967296 0)).foldlM Storage.save {} =
        .error (.wal .payloadTooLong) :=
  saves_panic_of_length List.length_replicate

end Raft
end Basalt
