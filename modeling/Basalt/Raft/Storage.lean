import Basalt.Lib.Outcome
import Basalt.Raft.Types

/-!
# Durable state of a node

The state file is a sequence of framed records, each an event: a hard state, a
batch of entries, a truncation, or the snapshot boundary that opens a
rewritten file.  Opening a file folds its records into the recovered state.
-/

namespace Basalt
namespace Raft

open Lib

/-!
## Records
-/

def recHardState : UInt8 := 1
def recEntries : UInt8 := 2
def recTruncate : UInt8 := 3
def recCompact : UInt8 := 4

inductive StorageError where
  | emptyRecord
  | badHardState
  | badCompact
  | compactNotFirst
  | shortEntries
  | truncatedHeader
  | dataOverrun
  | trailingBytes
  | belowSnapshot (index snapshot : Nat)
  | gap (index last : Nat)
  | badTruncate
  | truncateBelowSnapshot (index snapshot : Nat)
  | unknownRecord (tag : UInt8)
  | sliceBounds (bound : Nat)
deriving DecidableEq, Repr

def StorageError.message : StorageError -> String
  | emptyRecord => "raft: empty storage record"
  | badHardState => "raft: bad hardstate record"
  | badCompact => "raft: bad compact record"
  | compactNotFirst => "raft: compact record not at file start"
  | shortEntries => "raft: short entries record"
  | truncatedHeader => "raft: truncated entry header"
  | dataOverrun => "raft: entry data overruns record"
  | trailingBytes => "raft: trailing bytes in entries record"
  | belowSnapshot index snapshot => s!"raft: entry {index} below snapshot {snapshot}"
  | gap index last => s!"raft: gap in storage at index {index} (have through {last})"
  | badTruncate => "raft: bad truncate record"
  | truncateBelowSnapshot index snapshot =>
      s!"raft: truncate {index} below snapshot {snapshot}"
  | unknownRecord tag => s!"raft: unknown storage record {tag}"
  | sliceBounds bound => s!"runtime error: slice bounds out of range [:{bound}]"

def encodeEntry (e : Entry) : Bytes :=
  e.type.toByte ::
    (putLE 8 e.index ++ (putLE 8 e.term ++ (putLE 4 e.data.length ++ e.data)))

def encodeEntries (ents : List Entry) : Bytes :=
  putLE 4 ents.length ++ (ents.map encodeEntry).flatten

def decodeEntry (body : Bytes) : Except StorageError (Entry × Bytes) :=
  match body with
  | [] => .error .truncatedHeader
  | tag :: fields =>
      if body.length < 21 then .error .truncatedHeader
      else
        let dl := getLE ((fields.drop 16).take 4)
        let rest := fields.drop 20
        if dl > rest.length then .error .dataOverrun
        else
          .ok
            ({ type := EntryType.ofByte tag
               index := getLE (fields.take 8)
               term := getLE ((fields.drop 8).take 8)
               data := rest.take dl },
             rest.drop dl)

def decodeLoop : Nat -> Bytes -> Except StorageError (List Entry × Bytes)
  | 0, body => .ok ([], body)
  | n + 1, body => do
      let (e, body) <- decodeEntry body
      let (ents, body) <- decodeLoop n body
      pure (e :: ents, body)

def decodeEntries (body : Bytes) : Except StorageError (List Entry) :=
  if body.length < 4 then .error .shortEntries
  else do
    let (ents, rest) <- decodeLoop (getLE (body.take 4)) (body.drop 4)
    if rest.length ≠ 0 then .error .trailingBytes else pure ents

/-- Places one entry of a batch: it replaces what is stored at its index and
above, or extends the log by one. -/
def applyEntry (rec : Recovered) (e : Entry) : Except StorageError Recovered :=
  if e.index ≤ rec.snapIndex then .error (.belowSnapshot e.index rec.snapIndex)
  else
    let pos := e.index - rec.snapIndex
    if pos ≤ rec.entries.length then
      .ok { rec with entries := rec.entries.take (pos - 1) ++ [e] }
    else if pos = rec.entries.length + 1 then
      .ok { rec with entries := rec.entries ++ [e] }
    else .error (.gap e.index (rec.snapIndex + rec.entries.length))

/-- The comparison of the source is made on a signed position, so that a
position beyond its range is cut off anyway, which panics. -/
def applyTruncate (rec : Recovered) (index : Nat) : Except StorageError Recovered :=
  if index ≤ rec.snapIndex then
    .error (.truncateBelowSnapshot index rec.snapIndex)
  else
    let pos := index - rec.snapIndex
    if pos - 1 < rec.entries.length then
      .ok { rec with entries := rec.entries.take (pos - 1) }
    else if 0x8000000000000000 ≤ pos - 1 then .error (.sliceBounds (pos - 1))
    else .ok rec

def applyRecord (rec : Recovered) (payload : Bytes) :
    Except StorageError Recovered :=
  match payload with
  | [] => .error .emptyRecord
  | tag :: body =>
      if tag = recHardState then
        if body.length ≠ 24 then .error .badHardState
        else
          .ok
            { rec with
              hardState :=
                { term := getLE (body.take 8)
                  vote := getLE ((body.drop 8).take 8)
                  commit := getLE ((body.drop 16).take 8) } }
      else if tag = recCompact then
        if body.length ≠ 16 then .error .badCompact
        else if rec.entries.length ≠ 0 ∨ rec.snapIndex ≠ 0 then
          .error .compactNotFirst
        else
          .ok
            { rec with
              snapIndex := getLE (body.take 8)
              snapTerm := getLE ((body.drop 8).take 8) }
      else if tag = recEntries then do
        let decoded <- decodeEntries body
        decoded.foldlM applyEntry rec
      else if tag = recTruncate then
        if body.length ≠ 8 then .error .badTruncate
        else applyTruncate rec (getLE body)
      else .error (.unknownRecord tag)

def replayRecords (payloads : List Bytes) : Except StorageError Recovered :=
  payloads.foldlM applyRecord {}

def replay (file : Bytes) : Except StorageError Recovered :=
  (Wal.scanRecords applyRecord file {}).2

theorem replay_eq (file : Bytes) :
    replay file = replayRecords (Wal.framing.records file).1 := by
  rw [replay, Wal.scanRecords_snd]
  rfl

/-!
## The open file
-/

/-- `file` is what a reader sees, and `synced` counts the bytes at its front
that survive a crash. -/
structure Storage where
  file : Bytes := []
  synced : Nat := 0
  lastIndex : Nat := 0
deriving DecidableEq, Repr

/-- Opens the state file.  A torn last record ends the replay; it stays in the
file, and new records are appended after it. -/
def openStorage (file : Bytes) (synced : Nat) :
    Except StorageError (Storage × Recovered) := do
  let rec <- replay file
  pure
    ({ file := file
       synced := synced
       lastIndex := rec.snapIndex + rec.entries.length },
     rec)

def hardStateBody (hs : HardState) : Bytes :=
  putLE 8 hs.term ++ (putLE 8 hs.vote ++ putLE 8 hs.commit)

def compactBody (snapIndex snapTerm : Nat) : Bytes :=
  putLE 8 snapIndex ++ putLE 8 snapTerm

namespace Storage

def appendRecord (s : Storage) (tag : UInt8) (body : Bytes) :
    Except Panic Storage := do
  let file <- (Wal.appendRecord s.file (tag :: body)).mapError .wal
  pure { s with file := file }

def saveHardState (s : Storage) (hs : HardState) : Except Panic Storage :=
  s.appendRecord recHardState (hardStateBody hs)

def truncateFrom (s : Storage) (index : Nat) : Except Panic Storage :=
  s.appendRecord recTruncate (putLE 8 index)

def truncateFor (s : Storage) (index : Nat) : Except Panic Storage :=
  if index ≤ s.lastIndex then s.truncateFrom index else pure s

/-- Entries that overwrite stored ones are preceded by a truncation. -/
def appendEntries (s : Storage) (ents : List Entry) : Except Panic Storage :=
  match ents with
  | [] => pure s
  | e :: rest => do
      let s <- s.truncateFor e.index
      let s <- s.appendRecord recEntries (encodeEntries (e :: rest))
      pure { s with lastIndex := ((e :: rest).getLast (List.cons_ne_nil e rest)).index }

def sync (s : Storage) : Storage :=
  { s with synced := s.file.length }

def saveHard (s : Storage) (hs : Option HardState) : Except Panic Storage :=
  match hs with
  | none => pure s
  | some hs => s.saveHardState hs

def saveReady (s : Storage) (rd : Ready) : Except Panic Storage := do
  let s <- s.appendEntries rd.entries
  let s <- s.saveHard rd.hardState
  pure (if rd.entries ≠ [] ∨ rd.hardState ≠ none then s.sync else s)

def image (hs : HardState) (snapIndex snapTerm : Nat) (ents : List Entry) :
    Except Wal.Panic Bytes := do
  let buf <- Wal.appendRecord [] (recCompact :: compactBody snapIndex snapTerm)
  let buf <- Wal.appendRecord buf (recHardState :: hardStateBody hs)
  if ents.length > 0 then
    Wal.appendRecord buf (recEntries :: encodeEntries ents)
  else pure buf

def rewrite (s : Storage) (hs : HardState) (snapIndex snapTerm : Nat)
    (ents : List Entry) : Except Panic Storage := do
  let buf <- (image hs snapIndex snapTerm ents).mapError .wal
  pure
    { s with
      file := buf
      synced := buf.length
      lastIndex := snapIndex + ents.length }

end Storage

/-!
## Records read back
-/

def Entry.InRange (e : Entry) : Prop :=
  e.index < rangeLE 8 ∧ e.term < rangeLE 8

def HardState.InRange (hs : HardState) : Prop :=
  hs.term < rangeLE 8 ∧ hs.vote < rangeLE 8 ∧ hs.commit < rangeLE 8

@[simp]
theorem encodeEntry_length (e : Entry) :
    (encodeEntry e).length = 21 + e.data.length := by
  simp [encodeEntry]
  lia

theorem decodeEntry_encodeEntry {e : Entry} (h : e.InRange)
    (hdata : e.data.length < rangeLE 4) (rest : Bytes) :
    decodeEntry (encodeEntry e ++ rest) = .ok (e, rest) := by
  have h8 : (putLE 8 e.index ++ (putLE 8 e.term ++ (putLE 4 e.data.length ++
      e.data)) ++ rest).drop 8 =
      putLE 8 e.term ++ (putLE 4 e.data.length ++ (e.data ++ rest)) := by
    rw [List.append_assoc, List.drop_left' (putLE_length _ _), List.append_assoc,
      List.append_assoc]
  have h16 : (putLE 8 e.index ++ (putLE 8 e.term ++ (putLE 4 e.data.length ++
      e.data)) ++ rest).drop 16 = putLE 4 e.data.length ++ (e.data ++ rest) := by
    rw [show (16 : Nat) = 8 + 8 from rfl, ← List.drop_drop, h8,
      List.drop_left' (putLE_length _ _)]
  have h20 : (putLE 8 e.index ++ (putLE 8 e.term ++ (putLE 4 e.data.length ++
      e.data)) ++ rest).drop 20 = e.data ++ rest := by
    rw [show (20 : Nat) = 16 + 4 from rfl, ← List.drop_drop, h16,
      List.drop_left' (putLE_length _ _)]
  have hindex : (putLE 8 e.index ++ (putLE 8 e.term ++ (putLE 4 e.data.length ++
      e.data)) ++ rest).take 8 = putLE 8 e.index := by
    rw [List.append_assoc, List.take_left' (putLE_length _ _)]
  have hlong : ¬ (encodeEntry e ++ rest).length < 21 := by
    rw [List.length_append, encodeEntry_length]
    lia
  unfold decodeEntry
  simp only [encodeEntry, List.cons_append] at hlong ⊢
  simp only [hlong, if_false, h8, h16, h20, hindex,
    List.take_left' (putLE_length _ _), getLE_putLE hdata, getLE_putLE h.left,
    getLE_putLE h.right, EntryType.ofByte_toByte, List.take_left' rfl,
    List.drop_left' rfl, List.length_append]
  rw [if_neg (by lia)]

theorem decodeLoop_encode {ents : List Entry} (h : forall e, e ∈ ents -> e.InRange)
    (hdata : forall e, e ∈ ents -> e.data.length < rangeLE 4) (rest : Bytes) :
    decodeLoop ents.length ((ents.map encodeEntry).flatten ++ rest) =
      .ok (ents, rest) := by
  induction ents with
  | nil => rfl
  | cons e ents ih =>
      have hhead := decodeEntry_encodeEntry (h e List.mem_cons_self)
        (hdata e List.mem_cons_self) ((ents.map encodeEntry).flatten ++ rest)
      have htail := ih (fun x hx => h x (List.mem_cons_of_mem e hx))
        (fun x hx => hdata x (List.mem_cons_of_mem e hx))
      simp only [List.length_cons, List.map_cons, List.flatten_cons,
        List.append_assoc, decodeLoop, hhead, bind, Except.bind, htail]
      rfl

theorem length_le_encodeEntries (ents : List Entry) :
    ents.length ≤ (encodeEntries ents).length ∧
      forall e, e ∈ ents -> e.data.length ≤ (encodeEntries ents).length := by
  have hflat : ents.length ≤ (ents.map encodeEntry).flatten.length ∧
      forall e, e ∈ ents -> e.data.length ≤ (ents.map encodeEntry).flatten.length := by
    induction ents with
    | nil => simp
    | cons e ents ih =>
        simp only [List.map_cons, List.flatten_cons, List.length_append,
          encodeEntry_length, List.length_cons]
        constructor
        · lia
        · intro x hx
          rcases List.mem_cons.mp hx with rfl | hx
          · lia
          · have := ih.right x hx
            lia
  rw [encodeEntries, List.length_append]
  exact ⟨by lia, fun e he => Nat.le_trans (hflat.right e he) (Nat.le_add_left _ _)⟩

theorem decodeEntries_encodeEntries {ents : List Entry}
    (h : forall e, e ∈ ents -> e.InRange)
    (hlen : (encodeEntries ents).length < rangeLE 4) :
    decodeEntries (encodeEntries ents) = .ok ents := by
  rcases length_le_encodeEntries ents with ⟨hcount, hdata⟩
  have hloop := decodeLoop_encode h
    (fun e he => Nat.lt_of_le_of_lt (hdata e he) hlen) []
  rw [List.append_nil] at hloop
  unfold decodeEntries
  rw [if_neg (by simp [encodeEntries]), encodeEntries,
    List.take_left' (putLE_length _ _), List.drop_left' (putLE_length _ _),
    getLE_putLE (Nat.lt_of_le_of_lt hcount hlen), hloop]
  rfl

theorem applyRecord_hardState (rec : Recovered) {hs : HardState} (h : hs.InRange) :
    applyRecord rec (recHardState :: hardStateBody hs) =
      .ok { rec with hardState := hs } := by
  rcases h with ⟨hterm, hvote, hcommit⟩
  have h8 : (hardStateBody hs).drop 8 = putLE 8 hs.vote ++ putLE 8 hs.commit := by
    rw [hardStateBody, List.drop_left' (putLE_length _ _)]
  have h16 : (hardStateBody hs).drop 16 = putLE 8 hs.commit := by
    rw [show (16 : Nat) = 8 + 8 from rfl, ← List.drop_drop, h8,
      List.drop_left' (putLE_length _ _)]
  have h0 : (hardStateBody hs).take 8 = putLE 8 hs.term := by
    rw [hardStateBody, List.take_left' (putLE_length _ _)]
  have hlen : (hardStateBody hs).length = 24 := by simp [hardStateBody]
  have hall : (putLE 8 hs.commit).take 8 = putLE 8 hs.commit :=
    List.take_of_length_le (by simp)
  simp [applyRecord, hlen, h0, h8, h16, hall, List.take_left' (putLE_length _ _),
    getLE_putLE hterm, getLE_putLE hvote, getLE_putLE hcommit]

theorem applyRecord_truncate (rec : Recovered) {index : Nat} (h : index < rangeLE 8) :
    applyRecord rec (recTruncate :: putLE 8 index) = applyTruncate rec index := by
  simp [applyRecord, getLE_putLE h, recTruncate, recHardState, recCompact, recEntries]

theorem applyRecord_entries (rec : Recovered) {ents : List Entry}
    (h : forall e, e ∈ ents -> e.InRange)
    (hvalid : Wal.framing.valid (recEntries :: encodeEntries ents)) :
    applyRecord rec (recEntries :: encodeEntries ents) = ents.foldlM applyEntry rec := by
  have hlen : (encodeEntries ents).length < rangeLE 4 :=
    Nat.lt_of_lt_of_le (Nat.lt_of_succ_le hvalid) (by decide)
  simp [applyRecord, decodeEntries_encodeEntries h hlen, recHardState,
    recCompact, recEntries]
  rfl

theorem applyRecord_compact {rec : Recovered} {index term : Nat}
    (hindex : index < rangeLE 8) (hterm : term < rangeLE 8)
    (hents : rec.entries = []) (hsnap : rec.snapIndex = 0) :
    applyRecord rec (recCompact :: compactBody index term) =
      .ok { rec with snapIndex := index, snapTerm := term } := by
  have h0 : (compactBody index term).take 8 = putLE 8 index := by
    rw [compactBody, List.take_left' (putLE_length _ _)]
  have h8 : (compactBody index term).drop 8 = putLE 8 term := by
    rw [compactBody, List.drop_left' (putLE_length _ _)]
  have hlen : (compactBody index term).length = 16 := by simp [compactBody]
  have hall : (putLE 8 term).take 8 = putLE 8 term :=
    List.take_of_length_le (by simp)
  simp [applyRecord, hlen, h0, h8, hall, hents, hsnap, recHardState, recCompact,
    getLE_putLE hindex, getLE_putLE hterm]

/-!
## What a file describes
-/

def NumberedFrom (first : Nat) (ents : List Entry) : Prop :=
  forall i e, ents[i]? = some e -> e.index = first + i

instance (first : Nat) (ents : List Entry) : Decidable (NumberedFrom first ents) :=
  decidable_of_iff (forall i, i < ents.length ->
      forall e, ents[i]? = some e -> e.index = first + i) ⟨
    fun h i e hi => h i (List.getElem?_eq_some_iff.mp hi).choose e hi,
    fun h i _ e hi => h i e hi⟩

theorem NumberedFrom.tail {first : Nat} {e : Entry} {ents : List Entry}
    (h : NumberedFrom first (e :: ents)) : NumberedFrom (first + 1) ents := by
  intro i x hx
  have hidx := h (i + 1) x (by simpa using hx)
  lia

theorem NumberedFrom.append {first : Nat} {ents es : List Entry}
    (h : NumberedFrom first ents) (hes : NumberedFrom (first + ents.length) es) :
    NumberedFrom first (ents ++ es) := by
  intro i e hi
  rcases Nat.lt_or_ge i ents.length with hlt | hge
  · rw [List.getElem?_append_left hlt] at hi
    exact h i e hi
  · rw [List.getElem?_append_right hge] at hi
    have hidx := hes _ e hi
    lia

theorem NumberedFrom.take {first : Nat} {ents : List Entry}
    (h : NumberedFrom first ents) (k : Nat) : NumberedFrom first (ents.take k) := by
  intro i e hi
  rw [List.getElem?_take] at hi
  split at hi
  · exact h i e hi
  · cases hi

theorem NumberedFrom.drop {first : Nat} {ents : List Entry}
    (h : NumberedFrom first ents) (k : Nat) :
    NumberedFrom (first + k) (ents.drop k) := by
  intro i e hi
  rw [List.getElem?_drop] at hi
  have hidx := h _ e hi
  lia

theorem NumberedFrom.getLast {first : Nat} {ents : List Entry}
    (h : NumberedFrom first ents) (hne : ents ≠ []) :
    (ents.getLast hne).index = first + (ents.length - 1) :=
  h _ _ (by rw [← List.getLast?_eq_getElem?, List.getLast?_eq_some_getLast hne])

theorem foldlM_applyEntry {rec : Recovered} {ents : List Entry}
    (h : NumberedFrom (rec.snapIndex + rec.entries.length + 1) ents) :
    ents.foldlM applyEntry rec =
      .ok { rec with entries := rec.entries ++ ents } := by
  induction ents generalizing rec with
  | nil =>
      rw [List.append_nil]
      rfl
  | cons e ents ih =>
      have hidx : e.index = rec.snapIndex + rec.entries.length + 1 := by
        simpa using h 0 e rfl
      have hone : applyEntry rec e =
          .ok { rec with entries := rec.entries ++ [e] } := by
        rw [applyEntry, if_neg (by lia)]
        dsimp only
        rw [if_neg (by lia), if_pos (by lia)]
      let next : Recovered := { rec with entries := rec.entries ++ [e] }
      have htail : NumberedFrom (next.snapIndex + next.entries.length + 1) ents := by
        simpa [next, Nat.add_assoc] using h.tail
      rw [List.foldlM_cons, hone]
      change ents.foldlM applyEntry next = _
      rw [ih htail]
      simp [next]

/-!
Whatever the records are, the entries they leave are numbered from the
snapshot boundary on.
-/

def Recovered.Numbered (rec : Recovered) : Prop :=
  NumberedFrom (rec.snapIndex + 1) rec.entries

theorem NumberedFrom.nil (first : Nat) : NumberedFrom first [] := by
  intro i e hi
  cases hi

theorem applyEntry_numbered {rec rec' : Recovered} {e : Entry} (h : rec.Numbered)
    (hok : applyEntry rec e = .ok rec') : rec'.Numbered := by
  have hsingle : forall k, e.index = rec.snapIndex + 1 + k ->
      NumberedFrom (rec.snapIndex + 1 + k) [e] := by
    intro k hk i x hx
    cases i with
    | zero =>
        cases hx
        exact hk
    | succ i => cases hx
  rw [applyEntry] at hok
  split at hok
  · cases hok
  · dsimp only at hok
    split at hok
    · cases hok
      refine (h.take _).append ?_
      rw [List.length_take]
      exact hsingle _ (by lia)
    · split at hok
      · cases hok
        exact NumberedFrom.append h (hsingle _ (by lia))
      · cases hok

theorem applyTruncate_numbered {rec rec' : Recovered} {index : Nat}
    (h : rec.Numbered) (hok : applyTruncate rec index = .ok rec') :
    rec'.Numbered := by
  rw [applyTruncate] at hok
  split at hok
  · cases hok
  · dsimp only at hok
    split at hok
    · cases hok
      exact h.take _
    · split at hok
      · cases hok
      · cases hok
        exact h

theorem applyRecord_numbered {rec rec' : Recovered} {payload : Bytes}
    (h : rec.Numbered) (hok : applyRecord rec payload = .ok rec') :
    rec'.Numbered := by
  cases payload with
  | nil => cases hok
  | cons tag body =>
      rw [applyRecord] at hok
      split at hok
      · split at hok
        · cases hok
        · cases hok
          exact h
      · split at hok
        · split at hok
          · cases hok
          · split at hok
            · cases hok
            · next hempty =>
                cases hok
                have hnil : rec.entries = [] := by
                  apply List.eq_nil_of_length_eq_zero
                  by_contra hne
                  exact hempty (Or.inl hne)
                unfold Recovered.Numbered
                rw [hnil]
                exact NumberedFrom.nil _
        · split at hok
          · rcases bind_eq_ok.mp hok with ⟨decoded, _, hfold⟩
            exact foldlM_invariant (fun _ _ _ _ => applyEntry_numbered) h hfold
          · split at hok
            · split at hok
              · cases hok
              · exact applyTruncate_numbered h hok
            · cases hok

theorem replay_numbered {file : Bytes} {rec : Recovered}
    (h : replay file = .ok rec) : rec.Numbered := by
  rw [replay_eq, replayRecords] at h
  have hstart : Recovered.Numbered {} := NumberedFrom.nil 1
  exact foldlM_invariant (fun _ _ _ _ => applyRecord_numbered) hstart h

/-- A file without a torn tail whose records are accepted. -/
structure Describes (file : Bytes) (rec : Recovered) : Prop where
  clean : Wal.framing.Clean file
  replay_eq : replay file = .ok rec

namespace Describes

variable {file : Bytes} {rec rec' : Recovered}

theorem nil : Describes [] {} where
  clean := rfl
  replay_eq := rfl

theorem frames (h : Describes file rec) {ps : List Bytes}
    (hps : forall p, p ∈ ps -> Wal.framing.valid p)
    (happly : ps.foldlM applyRecord rec = .ok rec') :
    Describes (file ++ Wal.framing.frames ps) rec' where
  clean := h.clean.append hps
  replay_eq := by
    have hrec := h.replay_eq
    rw [Raft.replay_eq, replayRecords] at hrec ⊢
    rw [Framing.records_append h.clean, Framing.records_frames hps,
      List.foldlM_append, hrec]
    exact happly

theorem record (h : Describes file rec) {payload buf : Bytes}
    (hbuf : Wal.appendRecord file payload = .ok buf)
    (happly : applyRecord rec payload = .ok rec') : Describes buf rec' := by
  rcases Wal.appendRecord_ok hbuf with ⟨hvalid, rfl⟩
  have hall : Describes (file ++ Wal.framing.frames [payload]) rec' := by
    refine h.frames (fun p hp => ?_) ?_
    · rw [List.mem_singleton.mp hp]
      exact hvalid
    · rw [List.foldlM_cons, happly]
      rfl
  rwa [Framing.frames_cons, Framing.frames_nil, List.append_nil] at hall

end Describes

structure Storage.Holds (s : Storage) (rec : Recovered) : Prop where
  describes : Describes s.file rec
  lastIndex_eq : s.lastIndex = rec.snapIndex + rec.entries.length

namespace Storage

variable {s s' : Storage} {rec rec' : Recovered}

theorem appendRecord_ok {tag : UInt8} {body : Bytes}
    (h : s.appendRecord tag body = .ok s') :
    exists file, Wal.appendRecord s.file (tag :: body) = .ok file ∧
      s' = { s with file := file } := by
  rcases bind_eq_ok.mp h with ⟨file, hfile, hpure⟩
  cases hpure
  exact ⟨file, mapError_eq_ok.mp hfile, rfl⟩

theorem describes_appendRecord {tag : UInt8} {body : Bytes}
    (hs : Describes s.file rec) (h : s.appendRecord tag body = .ok s')
    (happly : applyRecord rec (tag :: body) = .ok rec') :
    Describes s'.file rec' := by
  rcases appendRecord_ok h with ⟨file, hfile, rfl⟩
  exact hs.record hfile happly

theorem Holds.saveHardState {hs : HardState} (h : s.Holds rec) (hrange : hs.InRange)
    (hsave : s.saveHardState hs = .ok s') :
    s'.Holds { rec with hardState := hs } where
  describes :=
    describes_appendRecord h.describes hsave (applyRecord_hardState rec hrange)
  lastIndex_eq := by
    rcases appendRecord_ok hsave with ⟨file, _, rfl⟩
    exact h.lastIndex_eq

theorem Holds.saveHard {hs : Option HardState} (h : s.Holds rec)
    (hrange : forall x, hs = some x -> x.InRange)
    (hsave : s.saveHard hs = .ok s') :
    s'.Holds { rec with hardState := hs.getD rec.hardState } := by
  cases hs with
  | none =>
      cases hsave
      exact h
  | some x => exact h.saveHardState (hrange x rfl) hsave

/-- Entries that start inside the stored log, or right after it, replace what
is stored from there on. -/
theorem Holds.appendEntries {ents : List Entry} {k : Nat} (h : s.Holds rec)
    (hk : k ≤ rec.entries.length)
    (hnum : NumberedFrom (rec.snapIndex + k + 1) ents)
    (hrange : forall e, e ∈ ents -> e.InRange) (hne : ents ≠ [])
    (hsave : s.appendEntries ents = .ok s') :
    s'.Holds { rec with entries := rec.entries.take k ++ ents } := by
  cases ents with
  | nil => exact absurd rfl hne
  | cons e rest =>
      rcases bind_eq_ok.mp hsave with ⟨mid, hmid, hsave⟩
      rcases bind_eq_ok.mp hsave with ⟨last, hlast, hpure⟩
      cases hpure
      have hidx : e.index = rec.snapIndex + k + 1 := hnum 0 e rfl
      -- After the truncation the stored log ends where the batch begins.
      have hcut : Describes mid.file { rec with entries := rec.entries.take k } := by
        rw [truncateFor] at hmid
        split at hmid
        · next hle =>
            rw [h.lastIndex_eq] at hle
            refine describes_appendRecord h.describes hmid ?_
            rw [applyRecord_truncate rec (hrange e List.mem_cons_self).left,
              applyTruncate, if_neg (by lia)]
            have hpos : e.index - rec.snapIndex - 1 = k := by lia
            simp only [hpos]
            rw [if_pos (by lia)]
        · next hgt =>
            rw [h.lastIndex_eq] at hgt
            cases hmid
            rw [List.take_of_length_le (by lia)]
            exact h.describes
      have hlen : (rec.entries.take k).length = k := by
        rw [List.length_take]
        lia
      rcases appendRecord_ok hlast with ⟨file, hfile, _⟩
      have hvalid := (Wal.appendRecord_ok hfile).left
      have hfull : Describes last.file
          { rec with entries := rec.entries.take k ++ e :: rest } := by
        refine describes_appendRecord hcut hlast ?_
        rw [applyRecord_entries _ hrange hvalid]
        exact foldlM_applyEntry (by simpa [hlen] using hnum)
      constructor
      · exact hfull
      · have hend := hnum.getLast hne
        simp only [List.length_append, hlen, List.length_cons] at hend ⊢
        lia

theorem Holds.saveReady {rd : Ready} {k : Nat} (h : s.Holds rec)
    (hk : k ≤ rec.entries.length) (hempty : rd.entries = [] -> k = rec.entries.length)
    (hnum : NumberedFrom (rec.snapIndex + k + 1) rd.entries)
    (hents : forall e, e ∈ rd.entries -> e.InRange)
    (hhard : forall hs, rd.hardState = some hs -> hs.InRange)
    (hsave : s.saveReady rd = .ok s') :
    s'.Holds
      { rec with
        hardState := rd.hardState.getD rec.hardState
        entries := rec.entries.take k ++ rd.entries } := by
  rcases bind_eq_ok.mp hsave with ⟨mid, hmid, hsave⟩
  rcases bind_eq_ok.mp hsave with ⟨last, hlast, hpure⟩
  have hstored : mid.Holds { rec with entries := rec.entries.take k ++ rd.entries } := by
    by_cases hne : rd.entries = []
    · rw [hne] at hmid ⊢
      cases hmid
      rw [hempty hne, List.take_length, List.append_nil]
      exact h
    · exact h.appendEntries hk hnum hents hne hmid
  have hdone := hstored.saveHard hhard hlast
  cases hpure
  split
  · exact ⟨hdone.describes, hdone.lastIndex_eq⟩
  · exact hdone

theorem image_describes {hs : HardState} {index term : Nat} {ents : List Entry}
    {buf : Bytes} (hhard : hs.InRange) (hindex : index < rangeLE 8)
    (hterm : term < rangeLE 8) (hents : forall e, e ∈ ents -> e.InRange)
    (hnum : NumberedFrom (index + 1) ents)
    (h : image hs index term ents = .ok buf) :
    Describes buf
      { hardState := hs, snapIndex := index, snapTerm := term, entries := ents } := by
  rcases bind_eq_ok.mp h with ⟨b1, h1, h⟩
  rcases bind_eq_ok.mp h with ⟨b2, h2, h⟩
  have hcompact := Describes.nil.record h1
    (applyRecord_compact hindex hterm rfl rfl)
  have hstate := hcompact.record h2 (applyRecord_hardState _ hhard)
  split at h
  · refine hstate.record h ?_
    rw [applyRecord_entries _ hents (Wal.appendRecord_ok h).left]
    exact foldlM_applyEntry hnum
  · next hzero =>
      cases h
      have hnil : ents = [] := List.eq_nil_of_length_eq_zero (by lia)
      rw [hnil]
      exact hstate

theorem Holds.rewrite {hs : HardState} {index term : Nat} {ents : List Entry}
    (hhard : hs.InRange) (hindex : index < rangeLE 8)
    (hterm : term < rangeLE 8) (hents : forall e, e ∈ ents -> e.InRange)
    (hnum : NumberedFrom (index + 1) ents)
    (h : s.rewrite hs index term ents = .ok s') :
    s'.Holds
      { hardState := hs, snapIndex := index, snapTerm := term, entries := ents } := by
  rcases bind_eq_ok.mp h with ⟨buf, hbuf, hpure⟩
  cases hpure
  exact ⟨image_describes hhard hindex hterm hents hnum (mapError_eq_ok.mp hbuf), rfl⟩

end Storage

theorem holds_openStorage {file : Bytes} {synced : Nat} {st : Storage}
    {rec : Recovered} (hclean : Wal.framing.Clean file)
    (h : openStorage file synced = .ok (st, rec)) : st.Holds rec := by
  rcases bind_eq_ok.mp h with ⟨r, hr, hpure⟩
  cases hpure
  exact ⟨⟨hclean, hr⟩, rfl⟩

end Raft
end Basalt
