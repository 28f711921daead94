import Basalt.Lib.Run
import Basalt.Raft.StorageReplay

/-!
# The state file over the lives of a process

A process opens its state file, appends records, syncs, rewrites the file, and
crashes; the next one opens what is left.  A crash leaves any beginning of the
file that contains everything covered by the last completed sync.

Next to the file the model keeps what the calls have written: the records a
sync has covered, over all lives, and those it has not, with the position in
the file at which each of them ends.  No call reads them.
-/

namespace Basalt
namespace Raft

open Lib

structure Disk where
  storage : Storage := {}
  durable : List Bytes := []
  pending : List (Bytes × Nat) := []

inductive Call where
  | saveHardState (hs : HardState)
  | appendEntries (ents : List Entry)
  | saveReady (rd : Ready)
  | sync
  | rewrite (hs : HardState) (snapIndex snapTerm : Nat) (ents : List Entry)
  | crash (keep : Nat)

inductive CallError where
  | panic (p : Panic)
  | storage (e : StorageError)

def Call.saves : Call -> List Save
  | .saveHardState hs => [.hardState hs]
  | .appendEntries ents => [.entries ents]
  | .saveReady rd => .entries rd.entries :: (rd.hardState.map Save.hardState).toList
  | .rewrite hs snapIndex snapTerm ents => [.rewrite hs snapIndex snapTerm ents]
  | .sync | .crash _ => []

def Call.Appends : Call -> Prop
  | .saveHardState _ => True
  | .appendEntries ents => ents ≠ []
  | .saveReady rd => rd.entries ≠ [] ∨ rd.hardState ≠ none
  | .sync | .rewrite .. | .crash _ => False

instance : (c : Call) -> Decidable c.Appends
  | .saveHardState _ => inferInstanceAs (Decidable True)
  | .appendEntries _ => inferInstanceAs (Decidable (_ ≠ _))
  | .saveReady _ => inferInstanceAs (Decidable (_ ∨ _))
  | .sync | .rewrite .. | .crash _ => inferInstanceAs (Decidable False)

/-- The records of a batch of entries, for a file that ends at `lastIndex`. -/
def entriesPayloads (lastIndex : Nat) : List Entry -> List Bytes
  | [] => []
  | e :: rest =>
      (if e.index ≤ lastIndex then [recTruncate :: putLE 8 e.index] else []) ++
        [recEntries :: encodeEntries (e :: rest)]

def hardPayloads : Option HardState -> List Bytes
  | none => []
  | some hs => [recHardState :: hardStateBody hs]

def readyPayloads (lastIndex : Nat) (rd : Ready) : List Bytes :=
  entriesPayloads lastIndex rd.entries ++ hardPayloads rd.hardState

def imagePayloads (hs : HardState) (snapIndex snapTerm : Nat)
    (ents : List Entry) : List Bytes :=
  [recCompact :: compactBody snapIndex snapTerm, recHardState :: hardStateBody hs] ++
    (if ents.length > 0 then [recEntries :: encodeEntries ents] else [])

namespace Disk

def appended (d : Disk) (storage : Storage) (ps : List Bytes) : Disk :=
  { d with
    storage := storage
    pending := d.pending ++ Wal.framing.located d.storage.file.length ps }

def covered (d : Disk) : Disk :=
  { d with durable := d.durable ++ d.pending.map Prod.fst, pending := [] }

def exec (d : Disk) (c : Call) : Except CallError Disk :=
  match c with
  | .saveHardState hs => do
      let s <- (d.storage.saveHardState hs).mapError .panic
      pure (d.appended s (hardPayloads (some hs)))
  | .appendEntries ents => do
      let s <- (d.storage.appendEntries ents).mapError .panic
      pure (d.appended s (entriesPayloads d.storage.lastIndex ents))
  | .saveReady rd => do
      let s <- (d.storage.saveReady rd).mapError .panic
      let d := d.appended s (readyPayloads d.storage.lastIndex rd)
      pure (if rd.entries ≠ [] ∨ rd.hardState ≠ none then d.covered else d)
  | .sync => pure { d with storage := d.storage.sync }.covered
  | .rewrite hs snapIndex snapTerm ents => do
      let s <- (d.storage.rewrite hs snapIndex snapTerm ents).mapError .panic
      pure
        { storage := s
          durable := imagePayloads hs snapIndex snapTerm ents
          pending := [] }
  | .crash keep => do
      let (s, _) <- (openStorage (d.storage.file.take keep) d.storage.synced).mapError
        .storage
      pure
        { d with
          storage := s
          pending := d.pending.takeWhile fun x => decide (x.2 ≤ keep) }

/-- A crash cannot take what was synced, and the numbers are those of the machine. -/
def Possible (d : Disk) (c : Call) : Prop :=
  (forall x, x ∈ c.saves -> x.InRange) ∧ forall keep, c = .crash keep -> d.storage.synced ≤ keep

/-- Records are only appended to a file that scans to its end; the entries continue the
log that the file describes, or the boundary of a rewritten file. -/
def AppendsToClean (d : Disk) (c : Call) : Prop :=
  d.Possible c ∧ (c.Appends -> Wal.framing.Clean d.storage.file) ∧
    forall rec, replay d.storage.file = .ok rec -> Continuous rec c.saves

instance (d : Disk) (c : Call) : Decidable (d.Possible c) := by
  unfold Possible
  cases c with
  | crash keep =>
      exact decidable_of_iff (d.storage.synced ≤ keep)
        ⟨fun h => ⟨fun _ hx => absurd hx List.not_mem_nil, fun _ heq => by cases heq; exact h⟩,
          fun h => h.right keep rfl⟩
  | _ =>
      exact decidable_of_iff (forall x, x ∈ Call.saves _ -> x.InRange)
        ⟨fun h => ⟨h, fun _ heq => by cases heq⟩, fun h => h.left⟩

instance (d : Disk) (c : Call) : Decidable (d.AppendsToClean c) :=
  have : Decidable (forall rec, replay d.storage.file = .ok rec -> Continuous rec c.saves) :=
    match replay d.storage.file with
    | .error _ => .isTrue fun _ h => by cases h
    | .ok rec => decidable_of_iff (Continuous rec c.saves)
        ⟨fun h _ heq => by cases heq; exact h, fun h => h rec rfl⟩
  inferInstanceAs (Decidable (_ ∧ (_ -> (Wal.framing.records d.storage.file).2 = []) ∧ _))

def recovered (d : Disk) (keep : Nat) : Except StorageError Recovered := do
  let (_, rec) <- openStorage (d.storage.file.take keep) d.storage.synced
  pure rec

/-- Whatever a crash leaves, the next process recovers the state that the records
covered by a sync and a first part of the others describe. -/
def Survives (d : Disk) : Prop :=
  forall keep, d.storage.synced ≤ keep ->
    exists ps rec, ps <+: d.pending.map Prod.fst ∧
      replayRecords (d.durable ++ ps) = .ok rec ∧ d.recovered keep = .ok rec

theorem recovered_eq (d : Disk) (keep : Nat) :
    d.recovered keep = replay (d.storage.file.take keep) := by
  rw [recovered, openStorage]
  cases replay (d.storage.file.take keep) <;> rfl

end Disk

/-!
## What the calls write
-/

structure Storage.Writes (s : Storage) (ps : List Bytes) (s' : Storage) : Prop where
  valid : forall p, p ∈ ps -> Wal.framing.valid p
  file_eq : s'.file = s.file ++ Wal.framing.frames ps

namespace Storage

variable {s s' s'' : Storage}

theorem Writes.refl (s : Storage) : s.Writes [] s where
  valid := fun p hp => by cases hp
  file_eq := by simp

theorem Writes.trans {ps qs : List Bytes} (h : s.Writes ps s') (h' : s'.Writes qs s'') :
    s.Writes (ps ++ qs) s'' where
  valid := by
    intro p hp
    rcases List.mem_append.mp hp with hp | hp
    · exact h.valid p hp
    · exact h'.valid p hp
  file_eq := by
    rw [h'.file_eq, h.file_eq, Framing.frames_append, List.append_assoc]

theorem Writes.record {payload buf : Bytes}
    (h : Wal.appendRecord s.file payload = .ok buf) :
    s.Writes [payload] { s with file := buf } := by
  rcases Wal.appendRecord_ok h with ⟨hvalid, rfl⟩
  constructor
  · intro p hp
    rw [List.mem_singleton.mp hp]
    exact hvalid
  · rw [Framing.frames_cons, Framing.frames_nil, List.append_nil]
    rfl

theorem writes_appendRecord {tag : UInt8} {body : Bytes}
    (h : s.appendRecord tag body = .ok s') : s.Writes [tag :: body] s' ∧
      s'.synced = s.synced ∧ s'.lastIndex = s.lastIndex := by
  rcases appendRecord_ok h with ⟨file, hfile, rfl⟩
  exact ⟨Writes.record hfile, rfl, rfl⟩

theorem writes_appendEntries {ents : List Entry} (h : s.appendEntries ents = .ok s') :
    s.Writes (entriesPayloads s.lastIndex ents) s' ∧ s'.synced = s.synced := by
  cases ents with
  | nil =>
      cases h
      exact ⟨Writes.refl s, rfl⟩
  | cons e rest =>
      rcases bind_eq_ok.mp h with ⟨mid, hmid, h⟩
      rcases bind_eq_ok.mp h with ⟨last, hlast, hpure⟩
      cases hpure
      rcases writes_appendRecord hlast with ⟨hwrites, hsynced, _⟩
      rw [truncateFor] at hmid
      rw [entriesPayloads]
      split at hmid
      · next hle =>
          rcases writes_appendRecord hmid with ⟨hcut, hsynced', _⟩
          have hboth := hcut.trans hwrites
          rw [if_pos hle]
          exact ⟨⟨hboth.valid, hboth.file_eq⟩, hsynced.trans hsynced'⟩
      · next hgt =>
          cases hmid
          rw [if_neg hgt]
          exact ⟨⟨hwrites.valid, hwrites.file_eq⟩, hsynced⟩

theorem writes_saveHard {hs : Option HardState} (h : s.saveHard hs = .ok s') :
    s.Writes (hardPayloads hs) s' ∧ s'.synced = s.synced := by
  cases hs with
  | none =>
      cases h
      exact ⟨Writes.refl s, rfl⟩
  | some hs =>
      rcases writes_appendRecord h with ⟨hwrites, hsynced, _⟩
      exact ⟨hwrites, hsynced⟩

theorem writes_saveReady {rd : Ready} (h : s.saveReady rd = .ok s') :
    s.Writes (readyPayloads s.lastIndex rd) s' ∧
      s'.synced = if rd.entries ≠ [] ∨ rd.hardState ≠ none then s'.file.length
        else s.synced := by
  rcases bind_eq_ok.mp h with ⟨mid, hmid, h⟩
  rcases bind_eq_ok.mp h with ⟨last, hlast, hpure⟩
  rcases writes_appendEntries hmid with ⟨hents, hsynced⟩
  rcases writes_saveHard hlast with ⟨hhard, hsynced'⟩
  have hboth := hents.trans hhard
  cases hpure
  split
  · exact ⟨⟨hboth.valid, hboth.file_eq⟩, rfl⟩
  · exact ⟨hboth, hsynced'.trans hsynced⟩

theorem writes_image {hs : HardState} {snapIndex snapTerm : Nat} {ents : List Entry}
    {buf : Bytes} (h : image hs snapIndex snapTerm ents = .ok buf) :
    ({} : Storage).Writes (imagePayloads hs snapIndex snapTerm ents)
      { file := buf } := by
  rcases bind_eq_ok.mp h with ⟨b1, h1, h⟩
  rcases bind_eq_ok.mp h with ⟨b2, h2, h⟩
  have hhead := (Writes.record (s := {}) h1).trans (Writes.record (s := { file := b1 }) h2)
  rw [imagePayloads]
  split at h
  · next hpos =>
      rw [if_pos hpos]
      exact hhead.trans (Writes.record (s := { file := b2 }) h)
  · next hzero =>
      cases h
      rw [if_neg hzero]
      exact hhead

end Storage

/-!
## Runs without appends behind a torn record
-/

namespace Disk

variable {d d' : Disk}

/-- The file is the frames of the records written, followed by what a cut has
left of one more. -/
structure Inv (d : Disk) : Prop where
  layout : exists ps torn,
    (forall p, p ∈ d.durable ++ ps -> Wal.framing.valid p) ∧
    d.pending = Wal.framing.located (Wal.framing.frames d.durable).length ps ∧
    Wal.framing.Tail torn ∧
    d.storage.file = Wal.framing.frames (d.durable ++ ps) ++ torn
  synced_ge : (Wal.framing.frames d.durable).length ≤ d.storage.synced
  state : exists rec, replayRecords (d.durable ++ d.pending.map Prod.fst) = .ok rec ∧
    d.storage.lastIndex = rec.snapIndex + rec.entries.length

theorem Inv.durable_le (h : d.Inv) :
    (Wal.framing.frames d.durable).length ≤ d.storage.file.length := by
  rcases h.layout with ⟨ps, torn, _, _, _, hfile⟩
  rw [hfile, Framing.frames_append, List.length_append, List.length_append]
  lia

/-- What a crash leaves of the file. -/
theorem Inv.cut (h : d.Inv) {keep : Nat} (hkeep : d.storage.synced ≤ keep) :
    exists qs torn, qs <+: d.pending.map Prod.fst ∧
      (forall p, p ∈ d.durable ++ qs -> Wal.framing.valid p) ∧
      d.pending.takeWhile (fun x => decide (x.2 ≤ keep)) =
        Wal.framing.located (Wal.framing.frames d.durable).length qs ∧
      Wal.framing.Tail torn ∧
      d.storage.file.take keep = Wal.framing.frames (d.durable ++ qs) ++ torn := by
  rcases h.layout with ⟨ps, torn, hvalid, hpending, htail, hfile⟩
  have hbase : (Wal.framing.frames d.durable).length ≤ keep :=
    Nat.le_trans h.synced_ge hkeep
  rcases Framing.take_frames (fun p hp => hvalid p (List.mem_append_right _ hp)) htail
    hbase with ⟨u, hu, hcut⟩
  rcases Framing.located_takeWhile (F := Wal.framing)
    (Wal.framing.frames d.durable).length keep ps with ⟨qs, hqs, heq⟩
  rw [heq, Framing.map_fst_located] at hcut
  refine ⟨qs, u, ?_, ?_, ?_, hu, ?_⟩
  · rw [hpending, Framing.map_fst_located]
    exact hqs
  · intro p hp
    rcases List.mem_append.mp hp with hp | hp
    · exact hvalid p (List.mem_append_left _ hp)
    · exact hvalid p (List.mem_append_right _ (hqs.subset hp))
  · rw [hpending, heq]
  · have hsum : keep = (Wal.framing.frames d.durable).length +
        (keep - (Wal.framing.frames d.durable).length) := by lia
    rw [hfile, Framing.frames_append, Framing.frames_append, List.append_assoc,
      List.append_assoc, hsum, List.take_length_add_append, hcut]

theorem Inv.describes_cut (h : d.Inv) {qs : List Bytes} (hqs : qs <+: d.pending.map Prod.fst) :
    exists rec, replayRecords (d.durable ++ qs) = .ok rec := by
  rcases hqs with ⟨rest, hrest⟩
  rcases h.state with ⟨last, hlast, _⟩
  rw [← hrest, ← List.append_assoc, replayRecords, List.foldlM_append] at hlast
  rcases bind_eq_ok.mp hlast with ⟨rec, hrec, _⟩
  exact ⟨rec, hrec⟩

theorem Inv.survives (h : d.Inv) : d.Survives := by
  intro keep hkeep
  rcases h.cut hkeep with ⟨qs, torn, hqs, hvalid, _, htail, hfile⟩
  rcases h.describes_cut hqs with ⟨rec, hrec⟩
  refine ⟨qs, rec, hqs, hrec, ?_⟩
  rw [recovered_eq, replay_eq, hfile, Framing.records_frames_tail hvalid htail]
  exact hrec

theorem Inv.replay_eq (h : d.Inv) :
    replay d.storage.file = replayRecords (d.durable ++ d.pending.map Prod.fst) := by
  rcases h.layout with ⟨ps, torn, hvalid, hpending, htail, hfile⟩
  rw [Raft.replay_eq, hfile, Framing.records_frames_tail hvalid htail, hpending,
    Framing.map_fst_located]

theorem Inv.holds (h : d.Inv) (hclean : Wal.framing.Clean d.storage.file) {rec : Recovered}
    (hrec : replay d.storage.file = .ok rec) : d.storage.Holds rec := by
  rcases h.state with ⟨rec', hrec', hlast⟩
  rw [h.replay_eq, hrec'] at hrec
  cases hrec
  exact ⟨⟨hclean, h.replay_eq.trans hrec'⟩, hlast⟩

theorem Inv.crash (h : d.Inv) {keep : Nat} (hkeep : d.storage.synced ≤ keep)
    {s : Storage} {rec : Recovered}
    (hopen : openStorage (d.storage.file.take keep) d.storage.synced = .ok (s, rec)) :
    ({ d with
      storage := s
      pending := d.pending.takeWhile fun x => decide (x.2 ≤ keep) } : Disk).Inv := by
  rcases h.cut hkeep with ⟨qs, torn, _, hvalid, hpending, htail, hfile⟩
  rcases bind_eq_ok.mp hopen with ⟨rec', hrec, hpure⟩
  cases hpure
  refine ⟨⟨qs, torn, hvalid, hpending, htail, hfile⟩, h.synced_ge, rec, ?_, rfl⟩
  show replayRecords (d.durable ++ (d.pending.takeWhile _).map Prod.fst) = .ok rec
  rw [hpending, Framing.map_fst_located, ← hrec, Raft.replay_eq, hfile,
    Framing.records_frames_tail hvalid htail]

theorem Inv.appended (h : d.Inv) (hclean : Wal.framing.Clean d.storage.file)
    {s : Storage} {qs : List Bytes} (hwrites : d.storage.Writes qs s)
    (hsynced : (Wal.framing.frames d.durable).length ≤ s.synced) {rec : Recovered}
    (hholds : s.Holds rec) : (d.appended s qs).Inv := by
  rcases h.layout with ⟨ps, torn, hvalid, hpending, htail, hfile⟩
  have hnil : torn = [] := by
    rw [Framing.Clean, hfile, Framing.records_frames_tail hvalid htail] at hclean
    exact hclean
  rw [hnil, List.append_nil] at hfile
  have hall : forall p, p ∈ d.durable ++ (ps ++ qs) -> Wal.framing.valid p := by
    intro p hp
    rw [← List.append_assoc] at hp
    rcases List.mem_append.mp hp with hp | hp
    · exact hvalid p hp
    · exact hwrites.valid p hp
  have hframes : s.file = Wal.framing.frames (d.durable ++ (ps ++ qs)) := by
    rw [hwrites.file_eq, hfile, ← List.append_assoc, Framing.frames_append (d.durable ++ ps)]
  refine ⟨⟨ps ++ qs, [], hall, ?_, Or.inl rfl, ?_⟩, hsynced, rec, ?_, hholds.lastIndex_eq⟩
  · change d.pending ++ Wal.framing.located d.storage.file.length qs = _
    rw [hpending, hfile, Framing.frames_append, List.length_append]
    exact (Framing.located_append _ ps qs).symm
  · rw [List.append_nil]
    exact hframes
  · change replayRecords (d.durable ++
      (d.pending ++ Wal.framing.located d.storage.file.length qs).map Prod.fst) = .ok rec
    rw [hpending, List.map_append, Framing.map_fst_located, Framing.map_fst_located,
      ← hholds.describes.replay_eq, Raft.replay_eq, hframes, Framing.records_frames hall]

theorem Inv.covered (h : d.Inv) {s : Storage} (hsame : s.file = d.storage.file)
    (hlast : s.lastIndex = d.storage.lastIndex) (hsynced : s.synced = s.file.length) :
    ({ d with storage := s } : Disk).covered.Inv := by
  rcases h.layout with ⟨ps, torn, hvalid, hpending, htail, hfile⟩
  have hall : ({ d with storage := s } : Disk).covered.durable = d.durable ++ ps := by
    change d.durable ++ d.pending.map Prod.fst = _
    rw [hpending, Framing.map_fst_located]
  refine ⟨⟨[], torn, ?_, rfl, htail, ?_⟩, ?_, ?_⟩
  · rw [hall, List.append_nil]
    exact hvalid
  · rw [hall, List.append_nil]
    exact hsame.trans hfile
  · rw [hall]
    change _ ≤ s.synced
    rw [hsynced, hsame, hfile, List.length_append]
    lia
  · rcases h.state with ⟨rec, hrec, hindex⟩
    refine ⟨rec, ?_, hlast.trans hindex⟩
    change replayRecords (d.durable ++ d.pending.map Prod.fst ++ []) = .ok rec
    rw [List.append_nil]
    exact hrec

theorem Inv.holds_of_appends {c : Call} (h : d.Inv) (hc : d.AppendsToClean c)
    (happends : c.Appends) : exists rec, d.storage.Holds rec ∧ Continuous rec c.saves := by
  rcases h.state with ⟨rec, hrec, _⟩
  have hreplay := h.replay_eq.trans hrec
  exact ⟨rec, h.holds (hc.right.left happends) hreplay, hc.right.right rec hreplay⟩

theorem appended_nil (d : Disk) : d.appended d.storage [] = d := by
  rw [appended, Framing.located, List.append_nil]

theorem Inv.saveHardState {hs : HardState} (h : d.Inv)
    (hc : d.AppendsToClean (.saveHardState hs)) {s : Storage}
    (hsave : d.storage.saveHardState hs = .ok s) :
    (d.appended s (hardPayloads (some hs))).Inv := by
  rcases h.holds_of_appends hc trivial with ⟨rec, hholds, _⟩
  rcases Storage.writes_appendRecord hsave with ⟨hwrites, hsynced, _⟩
  exact h.appended (hc.right.left trivial) hwrites (by rw [hsynced]; exact h.synced_ge)
    (hholds.saveHardState (hc.left.left _ List.mem_cons_self) hsave)

theorem Inv.appendEntries {ents : List Entry} (h : d.Inv)
    (hc : d.AppendsToClean (.appendEntries ents)) {s : Storage}
    (hsave : d.storage.appendEntries ents = .ok s) :
    (d.appended s (entriesPayloads d.storage.lastIndex ents)).Inv := by
  by_cases hne : ents = []
  · subst hne
    cases hsave
    rw [entriesPayloads, appended_nil]
    exact h
  · rcases h.holds_of_appends hc hne with ⟨rec, hholds, hcont, _⟩
    rcases Storage.writes_appendEntries hsave with ⟨hwrites, hsynced⟩
    exact h.appended (hc.right.left hne) hwrites (by rw [hsynced]; exact h.synced_ge)
      (hholds.save (c := .entries ents) (hc.left.left _ List.mem_cons_self) hcont hsave)

theorem holds_saveReady {rd : Ready} {s s' : Storage} {rec : Recovered} (h : s.Holds rec)
    (hrange : forall x, x ∈ (Call.saveReady rd).saves -> x.InRange)
    (hcont : Continuous rec (Call.saveReady rd).saves) (hsave : s.saveReady rd = .ok s') :
    exists rec', s'.Holds rec' := by
  rcases bind_eq_ok.mp hsave with ⟨mid, hmid, hsave⟩
  rcases bind_eq_ok.mp hsave with ⟨last, hlast, hpure⟩
  have hentries : mid.Holds _ :=
    h.save (c := .entries rd.entries) (hrange _ List.mem_cons_self) hcont.left hmid
  have hhard : forall hs, rd.hardState = some hs -> hs.InRange := by
    intro hs heq
    apply hrange (.hardState hs)
    rw [Call.saves, heq]
    exact List.mem_cons_of_mem _ List.mem_cons_self
  have hdone := hentries.saveHard hhard hlast
  cases hpure
  split
  · exact ⟨_, hdone.describes, hdone.lastIndex_eq⟩
  · exact ⟨_, hdone⟩

theorem Inv.saveReady {rd : Ready} (h : d.Inv) (hc : d.AppendsToClean (.saveReady rd))
    {s : Storage} (hsave : d.storage.saveReady rd = .ok s) :
    (if rd.entries ≠ [] ∨ rd.hardState ≠ none then
      (d.appended s (readyPayloads d.storage.lastIndex rd)).covered
    else d.appended s (readyPayloads d.storage.lastIndex rd)).Inv := by
  rcases Storage.writes_saveReady hsave with ⟨hwrites, hsynced⟩
  split
  · next hsome =>
      rw [if_pos hsome] at hsynced
      rcases h.holds_of_appends hc hsome with ⟨rec, hholds, hcont⟩
      rcases holds_saveReady hholds hc.left.left hcont hsave with ⟨rec', hholds'⟩
      have hle : (Wal.framing.frames d.durable).length ≤ s.synced := by
        have hdurable := h.durable_le
        rw [hsynced, hwrites.file_eq, List.length_append]
        lia
      exact (h.appended (hc.right.left hsome) hwrites hle hholds').covered rfl rfl hsynced
  · next hnone =>
      rcases not_or.mp hnone with ⟨hents, hhard⟩
      rw [not_not] at hents hhard
      rw [Storage.saveReady, hents, hhard] at hsave
      cases hsave
      rw [readyPayloads, hents, hhard]
      exact (appended_nil d).symm ▸ h

theorem inv_rewrite {s s' : Storage} {hs : HardState} {snapIndex snapTerm : Nat}
    {ents : List Entry} (hrange : (Save.rewrite hs snapIndex snapTerm ents).InRange)
    (hnum : NumberedFrom (snapIndex + 1) ents)
    (h : s.rewrite hs snapIndex snapTerm ents = .ok s') :
    ({ storage := s'
       durable := imagePayloads hs snapIndex snapTerm ents
       pending := [] } : Disk).Inv := by
  rcases hrange with ⟨hhard, hindex, hterm, hents⟩
  have hholds := Storage.Holds.rewrite hhard hindex hterm hents hnum h
  rcases bind_eq_ok.mp h with ⟨buf, hbuf, hpure⟩
  cases hpure
  have hwrites := Storage.writes_image (mapError_eq_ok.mp hbuf)
  have hfile := hwrites.file_eq
  change buf = [] ++ Wal.framing.frames (imagePayloads hs snapIndex snapTerm ents) at hfile
  rw [List.nil_append] at hfile
  refine ⟨⟨[], [], ?_, rfl, Or.inl rfl, ?_⟩, ?_, _, ?_, hholds.lastIndex_eq⟩
  · rw [List.append_nil]
    exact hwrites.valid
  · rw [List.append_nil, List.append_nil]
    exact hfile
  · exact Nat.le_of_eq (congrArg List.length hfile.symm)
  · rw [List.map_nil, List.append_nil, ← hholds.describes.replay_eq, Raft.replay_eq, hfile,
      Framing.records_frames hwrites.valid]

theorem Inv.exec {c : Call} (h : d.Inv) (hc : d.AppendsToClean c)
    (hexec : d.exec c = .ok d') : d'.Inv := by
  cases c with
  | saveHardState hs =>
      rcases bind_eq_ok.mp hexec with ⟨s, hs', hpure⟩
      cases hpure
      exact h.saveHardState hc (mapError_eq_ok.mp hs')
  | appendEntries ents =>
      rcases bind_eq_ok.mp hexec with ⟨s, hs, hpure⟩
      cases hpure
      exact h.appendEntries hc (mapError_eq_ok.mp hs)
  | saveReady rd =>
      rcases bind_eq_ok.mp hexec with ⟨s, hs, hpure⟩
      cases hpure
      exact h.saveReady hc (mapError_eq_ok.mp hs)
  | sync =>
      cases hexec
      exact h.covered rfl rfl rfl
  | rewrite hs snapIndex snapTerm ents =>
      rcases bind_eq_ok.mp hexec with ⟨s, hs', hpure⟩
      cases hpure
      rcases h.state with ⟨rec, hrec, _⟩
      exact inv_rewrite (hc.left.left _ List.mem_cons_self)
        (hc.right.right rec (h.replay_eq.trans hrec)).left (mapError_eq_ok.mp hs')
  | crash keep =>
      rcases bind_eq_ok.mp hexec with ⟨x, hx, hpure⟩
      cases hpure
      exact h.crash (hc.left.right keep rfl) (mapError_eq_ok.mp hx)

theorem inv_new : ({} : Disk).Inv where
  layout := by
    refine ⟨[], [], ?_, rfl, Or.inl rfl, rfl⟩
    intro p hp
    cases hp
  synced_ge := Nat.le_refl _
  state := ⟨{}, rfl, rfl⟩

/-- Over any number of lives of the process, no synced record is lost. -/
theorem survives_of_appendsToClean (h : Reach exec AppendsToClean {} d) :
    d.Survives :=
  (h.invariant (I := Inv) (fun _ _ _ hinv hc hexec => hinv.exec hc hexec)
    inv_new).survives

/-- A torn record is left by a first crash, the file is rewritten, and an entry and a
vote are synced; the entry is then overwritten, and a second crash tears that. -/
def rewrittenAfterCrash : List Call :=
  [.saveHardState { term := 1 }, .crash 5, .appendEntries [], .rewrite { term := 1 } 0 0 [],
    .saveReady
      { entries := [{ index := 1, term := 5, data := [7] }]
        hardState := some { term := 5, vote := 2 } },
    .appendEntries [{ index := 1, term := 6, data := [8] }], .crash 150]

theorem survives_rewrittenAfterCrash :
    exists d, runWhile exec AppendsToClean rewrittenAfterCrash {} = .ok d ∧
      d.durable.length = 4 ∧ d.pending.length = 1 ∧ d.Survives := by
  have hrun : okWith (runWhile exec AppendsToClean rewrittenAfterCrash {})
      (fun d => d.durable.length = 4 ∧ d.pending.length = 1) := by
    decide +kernel
  rcases exists_of_okWith hrun with ⟨d, hd, hlen⟩
  rcases of_decide_eq_true hlen with ⟨hdurable, hpending⟩
  exact ⟨d, hd, hdurable, hpending, survives_of_appendsToClean (Reach.of_runWhile hd)⟩

def savedAfterCrash : List Call :=
  [.saveHardState { term := 1 }, .crash 5, .saveHardState { term := 5, vote := 2 },
    .sync]

/-- The vote was synced and the next process does not see it. -/
theorem not_survives_savedAfterCrash :
    exists d, Reach exec Possible {} d ∧
      d.durable = [recHardState :: hardStateBody { term := 5, vote := 2 }] ∧
      d.recovered d.storage.file.length = .ok {} ∧ ¬ d.Survives := by
  have hrun : okWith (runWhile exec Possible savedAfterCrash {})
      (fun d => d.durable = [recHardState :: hardStateBody { term := 5, vote := 2 }] ∧
        d.pending.map Prod.fst = [] ∧ d.storage.synced = d.storage.file.length ∧
        okWith (d.recovered d.storage.file.length) (fun rec => rec = {})) := by
    decide +kernel
  rcases exists_of_okWith hrun with ⟨d, hd, hcheck⟩
  rcases of_decide_eq_true hcheck with ⟨hdurable, hpending, hsynced, hok⟩
  rcases exists_of_okWith hok with ⟨rec, hrec, hnone⟩
  have hempty : rec = {} := of_decide_eq_true hnone
  rw [hempty] at hrec
  refine ⟨d, Reach.of_runWhile hd, hdurable, hrec, ?_⟩
  intro hsurvives
  rcases hsurvives d.storage.file.length (Nat.le_of_eq hsynced) with ⟨ps, rec', hps, hall, heq⟩
  rw [hpending] at hps
  have hnil : ps = [] := List.prefix_nil.mp hps
  have hvote : replayRecords [recHardState :: hardStateBody { term := 5, vote := 2 }] =
      .ok { hardState := { term := 5, vote := 2 } } := by
    decide +kernel
  rw [hdurable, hnil, List.append_nil, hvote] at hall
  rw [hrec, ← hall] at heq
  cases heq

end Disk

end Raft
end Basalt
