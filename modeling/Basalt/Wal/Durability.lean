import Basalt.Lib.Keyed
import Basalt.Lib.Run
import Basalt.Wal.Writer

/-!
# Durability of the write-ahead log

The log is specified without files: a sequence of segments, each a list of
records, of which only the last ones of the newest segment may still be lost.
The writer over its directory refines it through every call, every point at
which a call can be stopped, and every later incarnation, and a replay reads
back the records of the specification.
-/

namespace Basalt
namespace Wal

open Lib

/-!
## The specified log
-/

/-- The segments from number `first` on.  Those before the newest are whole;
of the newest, the records in `pending` are not synced. -/
structure Log where
  first : Nat
  older : List (List Bytes)
  synced : List Bytes
  pending : List Bytes

namespace Log

def newestID (l : Log) : Nat :=
  l.first + l.older.length

def newest (l : Log) : List Bytes :=
  l.synced ++ l.pending

def payloads (l : Log) : List Bytes :=
  l.older.flatten ++ l.newest

def size (l : Log) : Nat :=
  (framing.frames l.newest).length

def empty : Log where
  first := 1
  older := []
  synced := []
  pending := []

def add (l : Log) (payload : Bytes) : Log :=
  { l with pending := l.pending ++ [payload] }

def sealed (l : Log) : Log :=
  { l with synced := l.newest, pending := [] }

def rotated (l : Log) : Log :=
  { l with older := l.older ++ [l.newest], synced := [], pending := [] }

def dropOldest (l : Log) (n : Nat) : Log :=
  { l with first := l.first + n, older := l.older.drop n }

end Log

inductive Call where
  | openWriter (opts : Options)
  | append (payload : Bytes)
  | sync
  | rotate
  | close
  | deleteSegmentsBefore (upto : Nat)

structure Session where
  opts : Options
  closed : Bool := false

def Session.Accepts (s : Session) (payload : Bytes) : Prop :=
  s.closed = false ∧ (payload.length : Int) ≤ s.opts.maxRecordSize

instance (s : Session) (payload : Bytes) : Decidable (s.Accepts payload) :=
  inferInstanceAs (Decidable (_ ∧ _))

namespace Log

/-- The logs an accepted record leads to, one after the other. -/
def appendStages (l : Log) (opts : Options) (payload : Bytes) : List Log :=
  [l.add payload] ++
    (if opts.sync = .everyRecord then [(l.add payload).sealed] else []) ++
    (if ((l.add payload).size : Int) ≥ opts.segmentSize
      then [(l.add payload).sealed, (l.add payload).rotated] else [])

def stages (l : Log) (s : Session) : Call -> List Log
  | .openWriter _ => [l.sealed, l.rotated]
  | .append payload => if s.Accepts payload then l.appendStages s.opts payload else []
  | .sync => if s.closed then [] else [l.sealed]
  | .rotate => if s.closed then [] else [l.sealed, l.rotated]
  | .close => if s.closed then [] else [l.sealed]
  | .deleteSegmentsBefore upto =>
      (List.range (min upto l.newestID - l.first)).map fun n => l.dropOldest (n + 1)

end Log

/-- The specified log with the writer that is open on it. -/
structure Journal where
  log : Option Log := none
  session : Option Session := none

namespace Journal

def payloads (j : Journal) : List Bytes :=
  (j.log.map Log.payloads).getD []

def stages (j : Journal) (c : Call) : List Log :=
  match c, j.log, j.session with
  | .openWriter _, none, _ => [Log.empty]
  | .openWriter _, some l, _ => [l.sealed, l.rotated]
  | c, some l, some s => l.stages s c
  | _, _, _ => []

def sessionAfter (j : Journal) : Call -> Option Session
  | .openWriter opts => some { opts := opts.withDefaults }
  | .close => j.session.map fun s => { s with closed := true }
  | _ => j.session

def exec (j : Journal) (c : Call) : Journal where
  log := (j.stages c).getLast?.or j.log
  session := j.sessionAfter c

end Journal

/-- What a crash can do to the log: records at the end that are not synced may
be gone. -/
inductive Lost : Option Log -> Option Log -> Prop where
  | none : Lost none none
  | some {l : Log} {kept : List Bytes} :
      kept <+: l.pending -> Lost (some l) (some { l with pending := kept })

/-- A call that returns, or a crash after some steps of a call, where at least
`keep` bytes of each segment survive, and what is synced. -/
inductive Action where
  | call (c : Call)
  | crash (c : Call) (steps : Nat) (keep : Nat -> Nat)

/-- A crash leaves the log that the call had reached, less what is lost. -/
inductive Journal.Step : Journal -> Action -> Journal -> Prop where
  | call {j : Journal} {c : Call} : Step j (.call c) (j.exec c)
  | crash {j : Journal} {c : Call} {steps : Nat} {keep : Nat -> Nat}
      {log log' : Option Log} :
      log ∈ j.log :: (j.stages c).map some -> Lost log log' ->
      Step j (.crash c steps keep) { log := log' }

/-!
## The process
-/

structure Process where
  dir : Dir := []
  writer : Option Writer := none

def withWriter (w : Option Writer) (f : Writer -> Proc Dir Writer) :
    Proc Dir (Option Writer) :=
  match w with
  | none => pure none
  | some w => do
      let w' <- f w
      pure (some w')

def program (w : Option Writer) : Call -> Proc Dir (Option Writer)
  | .openWriter opts => do
      let r <- openWriter opts
      pure r.toOption
  | .append payload => withWriter w fun w => do
      let r <- w.append payload
      pure r.1
  | .sync => withWriter w fun w => do
      let r <- w.sync
      pure r.1
  | .rotate => withWriter w fun w => do
      let r <- w.rotateNow
      pure r.1
  | .close => withWriter w fun w => do
      let r <- w.close
      pure r.1
  | .deleteSegmentsBefore upto => withWriter w fun w => do
      let _ <- w.deleteSegmentsBefore upto
      pure w

/-- Every file may lose bytes at its end, but none that are synced. -/
def Dir.cut (dir : Dir) (keep : Nat -> Nat) : Dir :=
  dir.map fun s => { s with bytes := s.bytes.take (max (keep s.id) s.synced) }

def Process.exec (p : Process) : Action -> Process
  | .call c =>
      { dir := (program p.writer c p.dir).final
        writer := (program p.writer c p.dir).result }
  | .crash c steps keep =>
      { dir := ((program p.writer c).stopped steps p.dir).cut keep }

/-!
## The files of a log
-/

def sealedFiles : Nat -> List (List Bytes) -> Dir
  | _, [] => []
  | id, records :: rest =>
      { id := id
        bytes := framing.frames records
        synced := (framing.frames records).length } :: sealedFiles (id + 1) rest

namespace Log

variable {l : Log} {t : Bytes}

def newestFile (l : Log) (t : Bytes) : Segment where
  id := l.newestID
  bytes := framing.frames l.newest ++ t
  synced := (framing.frames l.synced).length

/-- The directory of a log whose newest segment ends in a torn record `t`. -/
def files (l : Log) (t : Bytes) : Dir :=
  sealedFiles l.first l.older ++ [l.newestFile t]

def Valid (l : Log) : Prop :=
  forall p, p ∈ l.payloads -> framing.valid p

theorem Valid.older (h : l.Valid) {records : List Bytes} (hr : records ∈ l.older) :
    forall p, p ∈ records -> framing.valid p := fun p hp =>
  h p (List.mem_append_left _ (List.mem_flatten.mpr ⟨records, hr, hp⟩))

theorem Valid.newest (h : l.Valid) : forall p, p ∈ l.newest -> framing.valid p :=
  fun p hp => h p (List.mem_append_right _ hp)

end Log

theorem ids_sealedFiles (first : Nat) (older : List (List Bytes)) :
    (sealedFiles first older).ids = List.range' first older.length := by
  induction older generalizing first with
  | nil => rfl
  | cons records rest ih =>
      show first :: (sealedFiles (first + 1) rest).ids = _
      rw [ih, List.length_cons, List.range'_succ]

theorem sealedFiles_append (first : Nat) (rs rs' : List (List Bytes)) :
    sealedFiles first (rs ++ rs') =
      sealedFiles first rs ++ sealedFiles (first + rs.length) rs' := by
  induction rs generalizing first with
  | nil => rfl
  | cons r rs ih =>
      have hnext : first + 1 + rs.length = first + (r :: rs).length := by
        rw [List.length_cons]
        lia
      rw [List.cons_append, sealedFiles, sealedFiles, ih, hnext, List.cons_append]

theorem id_lt_of_mem_sealedFiles {first : Nat} {older : List (List Bytes)} {s : Segment}
    (h : s ∈ sealedFiles first older) : first ≤ s.id ∧ s.id < first + older.length := by
  have hid : s.id ∈ (sealedFiles first older).ids := List.mem_map_of_mem h
  rw [ids_sealedFiles, List.mem_range'_1] at hid
  exact hid

namespace Log

variable {l : Log} {t : Bytes}

theorem ids_files (l : Log) (t : Bytes) :
    (l.files t).ids = List.range' l.first (l.older.length + 1) := by
  have hlast : (l.files t).ids = (sealedFiles l.first l.older).ids ++ [l.newestID] := by
    rw [Dir.ids, files, List.map_append]
    rfl
  rw [hlast, ids_sealedFiles, List.range'_1_concat]
  rfl

theorem listSegments_files (l : Log) (t : Bytes) :
    listSegments (l.files t) = List.range' l.first (l.older.length + 1) := by
  rw [listSegments, ids_files]
  exact List.Pairwise.insertionSort_eq (List.pairwise_le_range' 1)

theorem newestID_mem (l : Log) (t : Bytes) : l.newestID ∈ (l.files t).ids := by
  rw [ids_files, List.mem_range'_1, newestID]
  lia

theorem update_files (l : Log) (t : Bytes) (f : Segment -> Segment) :
    (l.files t).update l.newestID f =
      sealedFiles l.first l.older ++ [f (l.newestFile t)] := by
  have hsealed : (sealedFiles l.first l.older).update l.newestID f =
      sealedFiles l.first l.older := by
    rw [Dir.update]
    apply (List.map_congr_left _).trans (List.map_id _)
    intro s hs
    have hlt := (id_lt_of_mem_sealedFiles hs).right
    have hne : s.id ≠ l.newestID := by
      rw [newestID]
      lia
    exact if_neg hne
  rw [Dir.update, files, List.map_append]
  show (sealedFiles l.first l.older).update l.newestID f ++
    [if l.newestID = l.newestID then f (l.newestFile t) else l.newestFile t] = _
  rw [hsealed, if_pos rfl]

theorem files_add (l : Log) (payload : Bytes) :
    sealedFiles l.first l.older ++
        [{ l.newestFile [] with bytes := (l.newestFile []).bytes ++ frame payload }] =
      (l.add payload).files [] := by
  have hbytes : (l.newestFile []).bytes ++ frame payload =
      ((l.add payload).newestFile []).bytes := by
    show framing.frames l.newest ++ [] ++ frame payload =
      framing.frames (l.synced ++ (l.pending ++ [payload])) ++ []
    rw [List.append_nil, List.append_nil, ← List.append_assoc, Framing.frames_append,
      Framing.frames_cons, Framing.frames_nil, List.append_nil]
    rfl
  rw [hbytes]
  rfl

theorem files_sealed (l : Log) :
    sealedFiles l.first l.older ++
        [{ l.newestFile [] with synced := (l.newestFile []).bytes.length }] =
      l.sealed.files [] := by
  have hnewest : l.sealed.newestFile [] =
      { l.newestFile [] with synced := (l.newestFile []).bytes.length } := by
    show Segment.mk _ (framing.frames (l.newest ++ []) ++ []) _ = _
    rw [List.append_nil, List.append_nil]
    show _ = Segment.mk l.newestID (framing.frames l.newest ++ [])
      (framing.frames l.newest ++ []).length
    rw [List.append_nil]
    rfl
  rw [← hnewest]
  rfl

theorem newestID_rotated (l : Log) : l.rotated.newestID = l.newestID + 1 := by
  rw [newestID, newestID]
  show l.first + (l.older ++ [l.newest]).length = _
  rw [List.length_append, List.length_singleton]
  lia

theorem files_rotated (l : Log) :
    l.sealed.files [] ++ [{ id := l.newestID + 1 }] = l.rotated.files [] := by
  have hold : sealedFiles l.first (l.older ++ [l.newest]) = l.sealed.files [] := by
    rw [sealedFiles_append, ← files_sealed]
    show _ ++ [Segment.mk _ (framing.frames l.newest) _] =
      _ ++ [Segment.mk _ (framing.frames l.newest ++ [])
        (framing.frames l.newest ++ []).length]
    rw [List.append_nil]
    rfl
  show _ = sealedFiles l.first (l.older ++ [l.newest]) ++
    [Segment.mk l.rotated.newestID (framing.frames [] ++ []) 0]
  rw [hold, newestID_rotated]
  rfl

theorem files_truncated (l : Log) (t : Bytes) :
    sealedFiles l.first l.older ++
        [{ l.newestFile t with
            bytes := (l.newestFile t).bytes.take l.size
            synced := min (l.newestFile t).synced l.size }] =
      l.files [] := by
  have hbytes : (l.newestFile t).bytes.take l.size = framing.frames l.newest :=
    List.take_left
  have hsynced : min (l.newestFile t).synced l.size = (framing.frames l.synced).length := by
    apply Nat.min_eq_left
    rw [size, newest, Framing.frames_append, List.length_append]
    exact Nat.le_add_right _ _
  rw [hbytes, hsynced]
  show _ = _ ++ [Segment.mk _ (framing.frames l.newest ++ []) _]
  rw [List.append_nil]
  rfl

/-!
## The course of every call
-/

def writer (l : Log) (s : Session) : Writer where
  opts := s.opts
  id := l.newestID
  size := l.size
  closed := s.closed

theorem takes_changeFile (l : Log) (t : Bytes) (f : Segment -> Segment) :
    (changeFile l.newestID f).Takes (l.files t)
      [sealedFiles l.first l.older ++ [f (l.newestFile t)]]
      (sealedFiles l.first l.older ++ [f (l.newestFile t)]) (.ok ()) := by
  apply (Proc.Takes.get _).after
  rw [if_pos (l.newestID_mem t), ← update_files]
  exact (Proc.Takes.step _ _).bind (Proc.Takes.pure _ _)

theorem takes_writeFile (l : Log) (payload : Bytes) :
    (writeFile l.newestID (frame payload)).Takes (l.files [])
      [(l.add payload).files []] ((l.add payload).files []) (.ok ()) := by
  rw [← files_add]
  exact l.takes_changeFile [] _

theorem takes_syncFile (l : Log) :
    (syncFile l.newestID).Takes (l.files []) [l.sealed.files []] (l.sealed.files [])
      (.ok ()) := by
  rw [← files_sealed]
  exact l.takes_changeFile [] _

theorem takes_truncateFile (l : Log) (t : Bytes) :
    (truncateFile l.newestID l.size).Takes (l.files t) [l.files []] (l.files [])
      (.ok ()) := by
  rw [← files_truncated l t]
  exact l.takes_changeFile t _

theorem takes_createFile (l : Log) :
    (createFile (l.newestID + 1)).Takes (l.sealed.files []) [l.rotated.files []]
      (l.rotated.files []) (.ok ()) := by
  have hnew : l.newestID + 1 ∉ (l.sealed.files []).ids := by
    rw [ids_files, List.mem_range'_1, newestID]
    show ¬ (_ ∧ _ < l.first + (l.older.length + 1))
    lia
  apply (Proc.Takes.get _).after
  rw [if_neg hnew, ← files_rotated]
  exact (Proc.Takes.step _ _).bind (Proc.Takes.pure _ _)

theorem takes_openSegment (l : Log) (s : Session) (size : Nat) :
    (Writer.openSegment
        { opts := s.opts, id := l.newestID + 1, size := size, closed := s.closed }).Takes
      (l.sealed.files []) [l.rotated.files []] (l.rotated.files [])
      (.ok (l.rotated.writer s)) := by
  have hwriter : ({ opts := s.opts, id := l.newestID + 1, closed := s.closed } : Writer) =
      l.rotated.writer s := by
    rw [← newestID_rotated]
    rfl
  rw [← hwriter]
  exact l.takes_createFile.orFail (Proc.Takes.pure _ _)

theorem takes_rotate (l : Log) (s : Session) :
    (l.writer s).rotate.Takes (l.files []) [l.sealed.files [], l.rotated.files []]
      (l.rotated.files []) (.ok (l.rotated.writer s)) :=
  l.takes_syncFile.orFail (l.takes_openSegment s l.size)

theorem takes_syncRecord (l : Log) (s : Session) :
    (l.writer s).syncRecord.Takes (l.files [])
      (if s.opts.sync = .everyRecord then [l.sealed.files []] else [])
      (if s.opts.sync = .everyRecord then l.sealed.files [] else l.files [])
      (.ok ()) := by
  rw [Writer.syncRecord]
  show Proc.Takes (if s.opts.sync = .everyRecord then _ else _) _ _ _ _
  by_cases hsync : s.opts.sync = .everyRecord
  · rw [if_pos hsync, if_pos hsync, if_pos hsync]
    exact l.takes_syncFile
  · rw [if_neg hsync, if_neg hsync, if_neg hsync]
    exact Proc.Takes.pure _ _

theorem sealed_sealed (l : Log) : l.sealed.sealed = l.sealed := by
  show Log.mk _ _ (l.newest ++ []) [] = _
  rw [List.append_nil]
  rfl

theorem rotated_sealed (l : Log) : l.sealed.rotated = l.rotated := by
  show Log.mk _ (l.older ++ [l.newest ++ []]) [] [] = _
  rw [List.append_nil]
  rfl

theorem size_sealed (l : Log) : l.sealed.size = l.size := by
  rw [size, size]
  show (framing.frames (l.newest ++ [])).length = _
  rw [List.append_nil]

theorem writer_sealed (l : Log) (s : Session) : l.sealed.writer s = l.writer s := by
  rw [writer, size_sealed]
  rfl

theorem takes_rotateFull (l : Log) (s : Session) :
    (l.writer s).rotateFull.Takes (l.files [])
      (if (l.size : Int) ≥ s.opts.segmentSize
        then [l.sealed.files [], l.rotated.files []] else [])
      (if (l.size : Int) ≥ s.opts.segmentSize then l.rotated.files [] else l.files [])
      (.ok (if (l.size : Int) ≥ s.opts.segmentSize then l.rotated.writer s
        else l.writer s)) := by
  rw [Writer.rotateFull]
  show Proc.Takes (if (l.size : Int) ≥ s.opts.segmentSize then _ else _) _ _ _ _
  by_cases hfull : (l.size : Int) ≥ s.opts.segmentSize
  · rw [if_pos hfull, if_pos hfull, if_pos hfull, if_pos hfull]
    exact l.takes_rotate s
  · rw [if_neg hfull, if_neg hfull, if_neg hfull, if_neg hfull]
    exact Proc.Takes.pure _ _

theorem size_add (l : Log) (payload : Bytes) :
    (l.add payload).size = l.size + (frame payload).length := by
  rw [size, size]
  show (framing.frames (l.synced ++ (l.pending ++ [payload]))).length = _
  rw [← List.append_assoc, Framing.frames_append, List.length_append,
    Framing.frames_cons, Framing.frames_nil, List.append_nil]
  rfl

theorem writer_add (l : Log) (s : Session) (payload : Bytes) :
    { l.writer s with size := (l.writer s).size + (frame payload).length } =
      (l.add payload).writer s := by
  rw [writer, writer, size_add]
  rfl

def appended (l : Log) (opts : Options) (payload : Bytes) : Log :=
  if ((l.add payload).size : Int) ≥ opts.segmentSize then (l.add payload).rotated
  else if opts.sync = .everyRecord then (l.add payload).sealed
  else l.add payload

theorem getLast?_appendStages (l : Log) (opts : Options) (payload : Bytes) :
    (l.appendStages opts payload).getLast? = some (l.appended opts payload) := by
  rw [appendStages, appended]
  by_cases hfull : ((l.add payload).size : Int) ≥ opts.segmentSize
  · rw [if_pos hfull, if_pos hfull, List.getLast?_append]
    rfl
  · rw [if_neg hfull, if_neg hfull, List.append_nil]
    by_cases hsync : opts.sync = .everyRecord
    · rw [if_pos hsync, if_pos hsync]
      rfl
    · rw [if_neg hsync, if_neg hsync]
      rfl

theorem takes_appendFrame (l : Log) (s : Session) (payload : Bytes) :
    ((l.writer s).appendFrame (frame payload)).Takes (l.files [])
      ((l.appendStages s.opts payload).map fun l => l.files [])
      ((l.appended s.opts payload).files [])
      ((l.appended s.opts payload).writer s, .ok l.newestID) := by
  let a := l.add payload
  -- The log after the record is written, and synced if the policy asks for it.
  let b := if s.opts.sync = .everyRecord then a.sealed else a
  have hb : b = a.sealed ∨ b = a := by
    by_cases hsync : s.opts.sync = .everyRecord
    · exact Or.inl (if_pos hsync)
    · exact Or.inr (if_neg hsync)
  have hsize : b.size = a.size := by
    rcases hb with hb | hb
    · rw [hb, size_sealed]
    · rw [hb]
  have hwriter : b.writer s = a.writer s := by
    rcases hb with hb | hb
    · rw [hb, writer_sealed]
    · rw [hb]
  have hsealed : b.sealed = a.sealed := by
    rcases hb with hb | hb
    · rw [hb, sealed_sealed]
    · rw [hb]
  have hrotated : b.rotated = a.rotated := by
    rcases hb with hb | hb
    · rw [hb, rotated_sealed]
    · rw [hb]
  have hfiles : (if s.opts.sync = .everyRecord then a.sealed.files [] else a.files []) =
      b.files [] := by
    show _ = Log.files (if s.opts.sync = .everyRecord then a.sealed else a) []
    split <;> rfl
  have hstages : (l.appendStages s.opts payload).map (fun l => l.files []) =
      [a.files []] ++ ((if s.opts.sync = .everyRecord then [a.sealed.files []] else []) ++
        ((if (a.size : Int) ≥ s.opts.segmentSize
          then [a.sealed.files [], a.rotated.files []] else []) ++ [])) := by
    rw [appendStages, List.map_append, List.map_append, List.append_nil,
      List.append_assoc]
    split <;> split <;> rfl
  have hfinal : l.appended s.opts payload =
      if (a.size : Int) ≥ s.opts.segmentSize then a.rotated else b := rfl
  have hsync := a.takes_syncRecord s
  have hfull := b.takes_rotateFull s
  rw [hfiles] at hsync
  rw [hsize, hwriter, hsealed, hrotated] at hfull
  have hend : (if (a.size : Int) ≥ s.opts.segmentSize then a.rotated.files []
      else b.files []) = (l.appended s.opts payload).files [] := by
    rw [hfinal]
    split <;> rfl
  have hlast : (if (a.size : Int) ≥ s.opts.segmentSize then a.rotated.writer s
      else a.writer s) = (l.appended s.opts payload).writer s := by
    rw [hfinal, ← hwriter]
    split <;> rfl
  rw [hend, hlast] at hfull
  rw [hstages]
  apply (l.takes_writeFile payload).orFail
  rw [writer_add]
  exact hsync.orFail (hfull.orFail (Proc.Takes.pure _ _))

/-!
### Removing segments
-/

theorem takes_removeBelow_none {upto : Nat} {ids : List Nat}
    (h : forall id, id ∈ ids -> upto ≤ id) (dir : Dir) :
    (removeBelow upto ids).Takes dir [] dir (.ok ()) := by
  induction ids with
  | nil => exact Proc.Takes.pure _ _
  | cons id ids ih =>
      have hid : ¬ id < upto := Nat.not_lt.mpr (h id List.mem_cons_self)
      rw [removeBelow, if_neg hid]
      exact ih fun id' hid' => h id' (List.mem_cons_of_mem id hid')

theorem files_eq_cons {l : Log} {records : List Bytes} {rest : List (List Bytes)}
    (h : l.older = records :: rest) (t : Bytes) :
    l.files t = Segment.mk l.first (framing.frames records)
      (framing.frames records).length :: (l.dropOldest 1).files t := by
  have hid : (l.dropOldest 1).newestID = l.newestID := by
    rw [newestID, newestID]
    show l.first + 1 + (l.older.drop 1).length = _
    rw [h, List.drop_one, List.tail_cons, List.length_cons]
    lia
  have hrest : (l.dropOldest 1).files t =
      sealedFiles (l.first + 1) rest ++ [l.newestFile t] := by
    show sealedFiles (l.first + 1) (l.older.drop 1) ++ [Segment.mk _ _ _] = _
    rw [h, hid]
    rfl
  rw [files, h, hrest, sealedFiles, List.cons_append]

theorem takes_removeFile {l : Log} {records : List Bytes} {rest : List (List Bytes)}
    (h : l.older = records :: rest) :
    (removeFile l.first).Takes (l.files []) [(l.dropOldest 1).files []]
      ((l.dropOldest 1).files []) (.ok ()) := by
  have hmem : l.first ∈ (l.files []).ids := by
    rw [ids_files, List.mem_range'_1]
    lia
  have hkept : (l.files []).filter (fun s => s.id ≠ l.first) =
      (l.dropOldest 1).files [] := by
    rw [files_eq_cons h, List.filter_cons_of_neg (by simp)]
    apply List.filter_eq_self.mpr
    intro s hs
    have hid : s.id ∈ ((l.dropOldest 1).files []).ids := List.mem_map_of_mem hs
    rw [ids_files, List.mem_range'_1] at hid
    exact decide_eq_true (Nat.ne_of_gt hid.left)
  apply (Proc.Takes.get _).after
  rw [if_pos hmem, ← hkept]
  exact (Proc.Takes.step _ _).bind (Proc.Takes.pure _ _)

theorem dropOldest_dropOldest (l : Log) (m n : Nat) :
    (l.dropOldest m).dropOldest n = l.dropOldest (m + n) := by
  show Log.mk (l.first + m + n) ((l.older.drop m).drop n) _ _ = Log.mk _ _ _ _
  rw [List.drop_drop, Nat.add_assoc]
  rfl

theorem takes_removeBelow {upto : Nat} (l : Log) (h : upto ≤ l.newestID) :
    (removeBelow upto (List.range' l.first (l.older.length + 1))).Takes (l.files [])
      ((List.range (upto - l.first)).map fun n => (l.dropOldest (n + 1)).files [])
      ((l.dropOldest (upto - l.first)).files []) (.ok ()) := by
  induction hn : l.older.length generalizing l with
  | zero =>
      have hfirst : upto ≤ l.first := by
        rw [newestID, hn] at h
        exact h
      rw [Nat.sub_eq_zero_of_le hfirst]
      apply takes_removeBelow_none
      intro id hid
      rw [List.mem_range'_1] at hid
      exact Nat.le_trans hfirst hid.left
  | succ n ih =>
      by_cases hfirst : l.first < upto
      · cases hold : l.older with
        | nil =>
            rw [hold] at hn
            cases hn
        | cons records rest =>
            have hlen : (l.dropOldest 1).older.length = n := by
              show (l.older.drop 1).length = n
              rw [List.length_drop, hn]
              rfl
            have hid : upto ≤ (l.dropOldest 1).newestID := by
              rw [newestID, hlen]
              rw [newestID, hn] at h
              show upto ≤ l.first + 1 + n
              lia
            have hcount : upto - l.first = (upto - (l.first + 1)) + 1 := by lia
            have hrest := ih (l.dropOldest 1) hid hlen
            have hstages : (List.range (upto - l.first)).map
                  (fun n => (l.dropOldest (n + 1)).files []) =
                [(l.dropOldest 1).files []] ++ (List.range (upto - (l.first + 1))).map
                  (fun n => ((l.dropOldest 1).dropOldest (n + 1)).files []) := by
              rw [hcount, List.range_succ_eq_map, List.map_cons, List.map_map]
              simp only [dropOldest_dropOldest]
              congr 1
              apply List.map_congr_left
              intro k _
              show (l.dropOldest (k + 1 + 1)).files [] = _
              rw [Nat.add_comm 1 (k + 1)]
            have hlast : l.dropOldest (upto - l.first) =
                (l.dropOldest 1).dropOldest (upto - (l.first + 1)) := by
              rw [dropOldest_dropOldest, hcount, Nat.add_comm]
            rw [List.range'_succ, removeBelow, if_pos hfirst, hstages, hlast]
            exact (takes_removeFile hold).orFail hrest
      · have hle : upto ≤ l.first := Nat.not_lt.mp hfirst
        rw [Nat.sub_eq_zero_of_le hle]
        apply takes_removeBelow_none
        intro id hid
        rw [List.mem_range'_1] at hid
        exact Nat.le_trans hle hid.left

theorem takes_deleteSegmentsBefore (l : Log) (s : Session) (upto : Nat) :
    ((l.writer s).deleteSegmentsBefore upto).Takes (l.files [])
      ((l.stages s (.deleteSegmentsBefore upto)).map fun l => l.files [])
      ((l.dropOldest (min upto l.newestID - l.first)).files []) (.ok ()) := by
  apply (Proc.Takes.get _).after
  rw [listSegments_files, stages, List.map_map]
  exact l.takes_removeBelow (Nat.min_le_right _ _)

/-!
### Opening
-/

theorem read_files (l : Log) (t : Bytes) :
    (l.files t).read l.newestID = some (framing.frames l.newest ++ t) := by
  have hfind : (l.files t).find? (fun s => s.id = l.newestID) = some (l.newestFile t) := by
    rw [files, List.find?_append]
    have hnone : (sealedFiles l.first l.older).find? (fun s => s.id = l.newestID) = none := by
      rw [List.find?_eq_none]
      intro s hs hid
      have hlt := (id_lt_of_mem_sealedFiles hs).right
      rw [of_decide_eq_true hid, newestID] at hlt
      exact Nat.lt_irrefl _ hlt
    rw [hnone, Option.none_or, List.find?_cons_of_pos]
    exact decide_eq_true rfl
  rw [Dir.read, hfind]
  rfl

theorem cleanLength_eq (buf : Bytes) :
    cleanLength buf = (framing.frames (framing.records buf).1).length := by
  have hok : forall ps : List Bytes,
      ps.foldlM (fun (_ : Unit) _ => (.ok () : Except Empty Unit)) () = .ok () := by
    intro ps
    induction ps with
    | nil => rfl
    | cons p ps ih => exact ih
  apply scanRecords_fst
  rw [scanRecords_snd]
  exact hok _

theorem cleanLength_newest {l : Log} {t : Bytes} (h : l.Valid) (ht : framing.Tail t) :
    cleanLength (framing.frames l.newest ++ t) = l.size := by
  rw [cleanLength_eq, Framing.records_frames_tail h.newest ht]
  rfl

theorem takes_repairTornTail {l : Log} {t : Bytes} (h : l.Valid) (ht : framing.Tail t) :
    (repairTornTail l.newestID).Takes (l.files t)
      ((if t = [] then [] else [l.files []]) ++ [l.sealed.files []])
      (l.sealed.files []) (.ok ()) := by
  have hread : (readFile l.newestID).Takes (l.files t) [] (l.files t)
      (.ok (framing.frames l.newest ++ t)) := by
    apply (Proc.Takes.get _).after
    rw [read_files]
    exact Proc.Takes.pure _ _
  apply hread.after
  show Proc.Takes (Proc.orFail (if cleanLength (framing.frames l.newest ++ t) ≠
    (framing.frames l.newest ++ t).length then _ else _) _ _) _ _ _ _
  rw [cleanLength_newest h ht, List.length_append]
  by_cases hnil : t = []
  · subst hnil
    rw [if_pos rfl, if_neg (not_not.mpr (by rfl))]
    exact (Proc.Takes.pure _ _).orFail l.takes_syncFile
  · have hpos := List.length_pos_of_ne_nil hnil
    rw [if_neg hnil, if_pos]
    · exact (l.takes_truncateFile t).orFail l.takes_syncFile
    · rw [size]
      lia

theorem takes_openWriter {l : Log} {t : Bytes} (h : l.Valid) (ht : framing.Tail t)
    (opts : Options) :
    (openWriter opts).Takes (l.files t)
      (((if t = [] then [] else [l.files []]) ++ [l.sealed.files []]) ++
        [l.rotated.files []])
      (l.rotated.files []) (.ok (l.rotated.writer { opts := opts.withDefaults })) := by
  have hlast : (listSegments (l.files t)).getLast? = some l.newestID := by
    rw [listSegments_files, List.getLast?_range', if_neg (Nat.succ_ne_zero _)]
    rfl
  have hstart : (startWriter opts.withDefaults (l.newestID + 1)).Takes (l.sealed.files [])
      [l.rotated.files []] (l.rotated.files [])
      (.ok (l.rotated.writer { opts := opts.withDefaults })) :=
    (l.takes_openSegment { opts := opts.withDefaults } 0).orFail (Proc.Takes.pure _ _)
  apply (Proc.Takes.get _).after
  rw [hlast]
  exact (takes_repairTornTail h ht).orFail hstart

theorem takes_openWriter_empty (opts : Options) :
    (openWriter opts).Takes [] [empty.files []] (empty.files [])
      (.ok (empty.writer { opts := opts.withDefaults })) :=
  rfl

/-!
## What the calls do to the records
-/

@[simp]
theorem payloads_sealed (l : Log) : l.sealed.payloads = l.payloads := by
  show l.older.flatten ++ (l.newest ++ []) = _
  rw [List.append_nil]
  rfl

@[simp]
theorem payloads_rotated (l : Log) : l.rotated.payloads = l.payloads := by
  show (l.older ++ [l.newest]).flatten ++ ([] ++ []) = _
  rw [List.flatten_append, List.append_nil, List.append_nil, List.flatten_singleton]
  rfl

@[simp]
theorem payloads_add (l : Log) (payload : Bytes) :
    (l.add payload).payloads = l.payloads ++ [payload] := by
  show l.older.flatten ++ (l.synced ++ (l.pending ++ [payload])) = _
  rw [← List.append_assoc l.synced, ← List.append_assoc]
  rfl

theorem Valid.of_subset {l l' : Log} (h : l.Valid) (hsub : l'.payloads ⊆ l.payloads) :
    l'.Valid := fun p hp =>
  h p (hsub hp)

theorem Valid.sealed {l : Log} (h : l.Valid) : l.sealed.Valid :=
  h.of_subset (by simp)

theorem Valid.rotated {l : Log} (h : l.Valid) : l.rotated.Valid :=
  h.of_subset (by simp)

theorem Valid.add {l : Log} (h : l.Valid) {payload : Bytes} (hp : framing.valid payload) :
    (l.add payload).Valid := by
  intro p hmem
  rw [payloads_add] at hmem
  rcases List.mem_append.mp hmem with hmem | hmem
  · exact h p hmem
  · rw [List.mem_singleton.mp hmem]
    exact hp

theorem Valid.dropOldest {l : Log} (h : l.Valid) (n : Nat) : (l.dropOldest n).Valid := by
  apply h.of_subset
  intro p hp
  rcases List.mem_append.mp hp with hp | hp
  · rcases List.mem_flatten.mp hp with ⟨records, hr, hp⟩
    exact List.mem_append_left _ (List.mem_flatten.mpr ⟨records, List.mem_of_mem_drop hr, hp⟩)
  · exact List.mem_append_right _ hp

theorem Valid.lost {l : Log} (h : l.Valid) {kept : List Bytes} (hkept : kept <+: l.pending) :
    Log.Valid { l with pending := kept } := by
  apply h.of_subset
  intro p hp
  rcases List.mem_append.mp hp with hp | hp
  · exact List.mem_append_left _ hp
  · apply List.mem_append_right
    rcases List.mem_append.mp hp with hp | hp
    · exact List.mem_append_left _ hp
    · exact List.mem_append_right _ (hkept.subset hp)

theorem Valid.appendStages {l : Log} (h : l.Valid) {payload : Bytes}
    (hp : framing.valid payload) (opts : Options) :
    forall l', l' ∈ l.appendStages opts payload -> l'.Valid := by
  have hadd := h.add hp
  intro l' hl'
  rcases List.mem_append.mp hl' with hl' | hl'
  · rcases List.mem_append.mp hl' with hl' | hl'
    · rw [List.mem_singleton.mp hl']
      exact hadd
    · split at hl'
      · rw [List.mem_singleton.mp hl']
        exact hadd.sealed
      · cases hl'
  · split at hl'
    · rcases List.mem_pair.mp hl' with rfl | rfl
      · exact hadd.sealed
      · exact hadd.rotated
    · cases hl'

end Log

def Session.Bounded (s : Session) : Prop :=
  s.opts.maxRecordSize ≤ maxPayload

theorem Session.Accepts.valid {s : Session} {payload : Bytes} (h : s.Accepts payload)
    (hs : s.Bounded) : framing.valid payload := by
  have hlen : (payload.length : Int) ≤ maxPayload := Int.le_trans h.right hs
  exact Int.ofNat_le.mp hlen

theorem Options.maxRecordSize_withDefaults (opts : Options) :
    opts.withDefaults.maxRecordSize ≤ maxPayload := by
  rw [withDefaults]
  dsimp only
  generalize (if opts.maxRecordSize ≤ 0 then (67108864 : Int) else opts.maxRecordSize) = size
  split
  · exact Int.le_refl _
  · next hle => exact Int.not_lt.mp hle

theorem Log.Valid.stages {l : Log} (h : l.Valid) {s : Session} (hs : s.Bounded) (c : Call) :
    forall l', l' ∈ l.stages s c -> l'.Valid := by
  intro l' hl'
  cases c with
  | openWriter opts =>
      rcases List.mem_pair.mp hl' with rfl | rfl
      · exact h.sealed
      · exact h.rotated
  | append payload =>
      rw [Log.stages] at hl'
      split at hl'
      · next haccepts => exact h.appendStages (haccepts.valid hs) s.opts l' hl'
      · cases hl'
  | sync =>
      rw [Log.stages] at hl'
      split at hl'
      · cases hl'
      · rw [List.mem_singleton.mp hl']
        exact h.sealed
  | rotate =>
      rw [Log.stages] at hl'
      split at hl'
      · cases hl'
      · rcases List.mem_pair.mp hl' with rfl | rfl
        · exact h.sealed
        · exact h.rotated
  | close =>
      rw [Log.stages] at hl'
      split at hl'
      · cases hl'
      · rw [List.mem_singleton.mp hl']
        exact h.sealed
  | deleteSegmentsBefore upto =>
      rcases List.mem_map.mp hl' with ⟨n, _, rfl⟩
      exact h.dropOldest (n + 1)

/-!
## The refinement
-/

/-- The directory holds the log, up to a torn record at its end. -/
def Holds (dir : Dir) : Option Log -> Prop
  | none => dir = []
  | some l => l.Valid ∧ exists t, framing.Tail t ∧ dir = l.files t

/-- A running writer knows the end of the log; without one, the log may end in
a torn record. -/
inductive Matches : Process -> Journal -> Prop where
  | idle {dir : Dir} {log : Option Log} :
      Holds dir log -> Matches { dir := dir } { log := log }
  | live {l : Log} {s : Session} :
      l.Valid -> s.Bounded ->
      Matches { dir := l.files [], writer := some (l.writer s) }
        { log := some l, session := some s }

theorem Log.Valid.holds {l : Log} (h : l.Valid) : Holds (l.files []) (some l) :=
  ⟨h, [], Or.inl rfl, rfl⟩

theorem Matches.holds {p : Process} {j : Journal} (h : Matches p j) :
    Holds p.dir j.log := by
  cases h with
  | idle hdir => exact hdir
  | live hvalid _ => exact hvalid.holds

def Session.after (s : Session) : Call -> Session
  | .close => { s with closed := true }
  | _ => s

theorem Log.refusal_writer (l : Log) (s : Session) :
    (l.writer s).refusal = if s.closed then some .closed else none :=
  rfl

theorem Log.takes_append (l : Log) {s : Session} (hs : s.Bounded) (payload : Bytes) :
    exists r, ((l.writer s).append payload).Takes (l.files [])
      ((l.stages s (.append payload)).map fun l => l.files [])
      (((l.stages s (.append payload)).getLast?.getD l).files [])
      (((l.stages s (.append payload)).getLast?.getD l).writer s, r) := by
  rw [Writer.append, refusal_writer, Log.stages]
  by_cases haccepts : s.Accepts payload
  · have hbuf : appendRecord [] payload = .ok (frame payload) :=
      if_neg (Nat.not_lt.mpr (haccepts.valid hs))
    have hsize : ¬ (payload.length : Int) > (l.writer s).opts.maxRecordSize :=
      Int.not_lt.mpr haccepts.right
    rw [if_pos haccepts, if_neg (ne_true_of_eq_false haccepts.left), getLast?_appendStages]
    dsimp only
    rw [if_neg hsize, hbuf]
    exact ⟨_, l.takes_appendFrame s payload⟩
  · rw [if_neg haccepts]
    cases hclosed : s.closed with
    | true => exact ⟨_, Proc.Takes.pure _ _⟩
    | false =>
        have hsize : (payload.length : Int) > (l.writer s).opts.maxRecordSize :=
          Int.not_le.mp fun hle => haccepts ⟨hclosed, hle⟩
        rw [if_neg Bool.false_ne_true]
        dsimp only
        rw [if_pos hsize]
        exact ⟨_, Proc.Takes.pure _ _⟩

theorem Log.takes_sync (l : Log) (s : Session) :
    exists r, (l.writer s).sync.Takes (l.files [])
      ((l.stages s .sync).map fun l => l.files [])
      (((l.stages s .sync).getLast?.getD l).files [])
      (((l.stages s .sync).getLast?.getD l).writer s, r) := by
  rw [Writer.sync, refusal_writer, Log.stages]
  by_cases hclosed : s.closed = true
  · rw [if_pos hclosed, if_pos hclosed]
    exact ⟨_, Proc.Takes.pure _ _⟩
  · rw [if_neg hclosed, if_neg hclosed]
    refine ⟨.ok (), l.takes_syncFile.orFail ?_⟩
    show Proc.Takes _ _ _ _ (l.sealed.writer s, _)
    rw [writer_sealed]
    exact Proc.Takes.pure _ _

theorem Log.takes_rotateNow (l : Log) (s : Session) :
    exists r, (l.writer s).rotateNow.Takes (l.files [])
      ((l.stages s .rotate).map fun l => l.files [])
      (((l.stages s .rotate).getLast?.getD l).files [])
      (((l.stages s .rotate).getLast?.getD l).writer s, r) := by
  rw [Writer.rotateNow, refusal_writer, Log.stages]
  by_cases hclosed : s.closed = true
  · rw [if_pos hclosed, if_pos hclosed]
    exact ⟨_, Proc.Takes.pure _ _⟩
  · rw [if_neg hclosed, if_neg hclosed]
    exact ⟨.ok (), (l.takes_rotate s).orFail (Proc.Takes.pure _ _)⟩

theorem Log.takes_close (l : Log) (s : Session) :
    exists r, (l.writer s).close.Takes (l.files [])
      ((l.stages s .close).map fun l => l.files [])
      (((l.stages s .close).getLast?.getD l).files [])
      (((l.stages s .close).getLast?.getD l).writer (s.after .close), r) := by
  rw [Writer.close, Log.stages]
  show exists r, Proc.Takes (if s.closed = true then _ else _) _ _ _ (_, r)
  by_cases hclosed : s.closed = true
  · have hwriter : l.writer (s.after .close) = l.writer s := by
      rw [writer, Session.after, ← hclosed]
      rfl
    rw [if_pos hclosed, if_pos hclosed]
    show exists r, Proc.Takes _ _ _ _ (l.writer (s.after .close), r)
    rw [hwriter]
    exact ⟨_, Proc.Takes.pure _ _⟩
  · rw [if_neg hclosed, if_neg hclosed]
    refine ⟨.ok (), l.takes_syncFile.orFail ?_⟩
    show Proc.Takes _ _ _ _ (l.sealed.writer (s.after .close), _)
    rw [writer_sealed]
    exact Proc.Takes.pure _ _

theorem takes_withWriter {α : Type} (f : Writer -> Proc Dir (Writer × α))
    {w w' : Writer} {r : α} {dir dir' : Dir} {ts : List Dir}
    (h : (f w).Takes dir ts dir' (w', r)) :
    (withWriter (some w) fun w => do
      let r <- f w
      pure r.1).Takes dir ts dir' (some w') := by
  have hfst : (f w >>= fun r => pure r.1).Takes dir (ts ++ []) dir' w' :=
    h.bind (Proc.Takes.pure w' dir')
  have hall : ((f w >>= fun r => pure r.1) >>= fun w' => pure (some w')).Takes dir
      (ts ++ [] ++ []) dir' (some w') := hfst.bind (Proc.Takes.pure (some w') dir')
  rw [List.append_nil, List.append_nil] at hall
  exact hall

theorem Log.getLast?_dropOldest (l : Log) (n : Nat) :
    ((List.range n).map fun k => l.dropOldest (k + 1)).getLast?.getD l = l.dropOldest n := by
  cases n with
  | zero => rfl
  | succ n =>
      rw [List.range_succ, List.map_append, List.getLast?_append]
      rfl

theorem Log.writer_dropOldest (l : Log) (s : Session) {n : Nat} (h : n ≤ l.older.length) :
    (l.dropOldest n).writer s = l.writer s := by
  have hid : (l.dropOldest n).newestID = l.newestID := by
    rw [newestID, newestID]
    show l.first + n + (l.older.drop n).length = _
    rw [List.length_drop]
    lia
  rw [writer, hid]
  rfl

/-- What a call of a running writer does: the directory goes through the files
of every log that the specification names, and the writer follows. -/
theorem Log.takes_program (l : Log) {s : Session} (hs : s.Bounded) {c : Call}
    (hc : forall opts, c ≠ .openWriter opts) :
    (program (some (l.writer s)) c).Takes (l.files [])
      ((l.stages s c).map fun l => l.files [])
      (((l.stages s c).getLast?.getD l).files [])
      (some (((l.stages s c).getLast?.getD l).writer (s.after c))) := by
  cases c with
  | openWriter opts => exact absurd rfl (hc opts)
  | append payload =>
      rcases l.takes_append hs payload with ⟨r, hr⟩
      exact takes_withWriter (fun w => w.append payload) hr
  | sync =>
      rcases l.takes_sync s with ⟨r, hr⟩
      exact takes_withWriter Writer.sync hr
  | rotate =>
      rcases l.takes_rotateNow s with ⟨r, hr⟩
      exact takes_withWriter Writer.rotateNow hr
  | close =>
      rcases l.takes_close s with ⟨r, hr⟩
      exact takes_withWriter Writer.close hr
  | deleteSegmentsBefore upto =>
      have hdelete : ((l.writer s).deleteSegmentsBefore upto >>= fun _ =>
          (pure (l.writer s) : Proc Dir Writer)).Takes (l.files []) _ _ (l.writer s) :=
        (l.takes_deleteSegmentsBefore s upto).bind (Proc.Takes.pure _ _)
      have hall : (((l.writer s).deleteSegmentsBefore upto >>= fun _ =>
          (pure (l.writer s) : Proc Dir Writer)) >>= fun w' => pure (some w')).Takes
          (l.files []) _ _ (some (l.writer s)) :=
        hdelete.bind (Proc.Takes.pure _ _)
      have hlast : (l.stages s (.deleteSegmentsBefore upto)).getLast?.getD l =
          l.dropOldest (min upto l.newestID - l.first) := l.getLast?_dropOldest _
      rw [List.append_nil, List.append_nil] at hall
      have hafter : s.after (.deleteSegmentsBefore upto) = s := rfl
      rw [hlast, hafter, l.writer_dropOldest s (by rw [newestID]; lia)]
      exact hall

/-!
## Crashes
-/

theorem cut_sealedFiles (first : Nat) (older : List (List Bytes)) (keep : Nat -> Nat) :
    (sealedFiles first older).cut keep = sealedFiles first older := by
  induction older generalizing first with
  | nil => rfl
  | cons records rest ih =>
      have hwhole : (framing.frames records).take
          (max (keep first) (framing.frames records).length) = framing.frames records :=
        List.take_of_length_le (Nat.le_max_right _ _)
      show Segment.mk first ((framing.frames records).take
        (max (keep first) (framing.frames records).length)) _ ::
          (sealedFiles (first + 1) rest).cut keep = _
      rw [hwhole, ih]
      rfl

/-- A crash only takes records that are not synced, the last ones first. -/
theorem Log.cut_files {l : Log} {t : Bytes} (h : l.Valid) (ht : framing.Tail t)
    (keep : Nat -> Nat) :
    exists kept u, kept <+: l.pending ∧ framing.Tail u ∧
      (l.files t).cut keep = Log.files { l with pending := kept } u := by
  have hpending : forall p, p ∈ l.pending -> framing.valid p := fun p hp =>
    h.newest p (List.mem_append_right _ hp)
  have hkeep : (framing.frames l.synced).length ≤
      max (keep l.newestID) (framing.frames l.synced).length := Nat.le_max_right _ _
  rcases Framing.take_frames_append hpending ht hkeep with ⟨kept, u, hkept, hu, hcut⟩
  refine ⟨kept, u, hkept, hu, ?_⟩
  have hsplit : (l.files t).cut keep = (sealedFiles l.first l.older).cut keep ++
      [Segment.mk l.newestID ((framing.frames (l.synced ++ l.pending) ++ t).take
        (max (keep l.newestID) (framing.frames l.synced).length))
        (framing.frames l.synced).length] := by
    rw [Dir.cut, files, List.map_append]
    rfl
  rw [hsplit, cut_sealedFiles, hcut]
  rfl

theorem Holds.cut {dir : Dir} {log : Option Log} (h : Holds dir log) (keep : Nat -> Nat) :
    exists log', Lost log log' ∧ Holds (dir.cut keep) log' := by
  cases log with
  | none =>
      have hdir : dir = [] := h
      subst hdir
      exact ⟨none, Lost.none, rfl⟩
  | some l =>
      rcases h with ⟨hvalid, t, ht, rfl⟩
      rcases Log.cut_files hvalid ht keep with ⟨kept, u, hkept, hu, hcut⟩
      exact ⟨_, Lost.some hkept, hvalid.lost hkept, u, hu, hcut⟩

/-!
## Every run
-/

/-- What a call does: each directory it passes holds a log that the
specification names, and it ends in a state that matches. -/
def Course (p : Process) (j : Journal) (c : Call) : Prop :=
  exists ts dir w, (program p.writer c).Takes p.dir ts dir w ∧
    (forall d, d ∈ ts -> exists log, log ∈ j.log :: (j.stages c).map some ∧ Holds d log) ∧
    Matches { dir := dir, writer := w } (j.exec c)

theorem takes_program_openWriter {w : Option Writer} {opts : Options} {dir dir' : Dir}
    {ts : List Dir} {w' : Writer} (h : (openWriter opts).Takes dir ts dir' (.ok w')) :
    (program w (.openWriter opts)).Takes dir ts dir' (some w') := by
  have hall : (openWriter opts >>= fun r => pure r.toOption).Takes dir (ts ++ []) dir'
      (some w') := h.bind (Proc.Takes.pure _ _)
  rw [List.append_nil] at hall
  exact hall

/-- Opening a writer repairs the log it finds and goes on in a new segment. -/
theorem course_openWriter {dir : Dir} {log : Option Log} (h : Holds dir log)
    (w : Option Writer) (s : Option Session) (opts : Options) :
    Course { dir := dir, writer := w } { log := log, session := s } (.openWriter opts) := by
  have hbounded : Session.Bounded { opts := opts.withDefaults } :=
    opts.maxRecordSize_withDefaults
  cases log with
  | none =>
      have hdir : dir = [] := h
      subst hdir
      have hvalid : Log.empty.Valid := fun p hp => by cases hp
      refine ⟨_, _, _, takes_program_openWriter (Log.takes_openWriter_empty opts), ?_,
        Matches.live hvalid hbounded⟩
      intro d hd
      rw [List.mem_singleton.mp hd]
      exact ⟨some Log.empty, List.mem_cons_of_mem _ List.mem_cons_self, hvalid.holds⟩
  | some l =>
      rcases h with ⟨hvalid, t, ht, rfl⟩
      refine ⟨_, _, _, takes_program_openWriter (Log.takes_openWriter hvalid ht opts), ?_,
        Matches.live hvalid.rotated hbounded⟩
      intro d hd
      rcases List.mem_append.mp hd with hd | hd
      · rcases List.mem_append.mp hd with hd | hd
        · split at hd
          · cases hd
          · rw [List.mem_singleton.mp hd]
            exact ⟨some l, List.mem_cons_self, hvalid.holds⟩
        · rw [List.mem_singleton.mp hd]
          exact ⟨some l.sealed, List.mem_cons_of_mem _ List.mem_cons_self,
            hvalid.sealed.holds⟩
      · rw [List.mem_singleton.mp hd]
        exact ⟨some l.rotated,
          List.mem_cons_of_mem _ (List.mem_cons_of_mem _ List.mem_cons_self),
          hvalid.rotated.holds⟩

theorem Session.Bounded.after {s : Session} (h : s.Bounded) (c : Call) :
    (s.after c).Bounded := by
  cases c <;> exact h

theorem course_live {l : Log} {s : Session} (hvalid : l.Valid) (hs : s.Bounded) {c : Call}
    (hc : forall opts, c ≠ .openWriter opts) :
    Course { dir := l.files [], writer := some (l.writer s) }
      { log := some l, session := some s } c := by
  have hstages : Journal.stages { log := some l, session := some s } c = l.stages s c := by
    cases c with
    | openWriter opts => exact absurd rfl (hc opts)
    | append | sync | rotate | close | deleteSegmentsBefore => rfl
  have hsession : Journal.sessionAfter { log := some l, session := some s } c =
      some (s.after c) := by
    cases c with
    | openWriter opts => exact absurd rfl (hc opts)
    | append | sync | rotate | close | deleteSegmentsBefore => rfl
  have hexec : Journal.exec { log := some l, session := some s } c =
      { log := some ((l.stages s c).getLast?.getD l), session := some (s.after c) } := by
    rw [Journal.exec, hstages, hsession]
    cases (l.stages s c).getLast? <;> rfl
  have hlast : ((l.stages s c).getLast?.getD l).Valid := by
    cases hget : (l.stages s c).getLast? with
    | none => exact hvalid
    | some l' => exact hvalid.stages hs c l' (List.mem_of_getLast? hget)
  refine ⟨_, _, _, l.takes_program hs hc, ?_, ?_⟩
  · intro d hd
    rcases List.mem_map.mp hd with ⟨l', hl', rfl⟩
    rw [hstages]
    exact ⟨some l', List.mem_cons_of_mem _ (List.mem_map_of_mem hl'),
      (hvalid.stages hs c l' hl').holds⟩
  · rw [hexec]
    exact Matches.live hlast (hs.after c)

theorem course_idle {dir : Dir} {log : Option Log} (h : Holds dir log) {c : Call}
    (hc : forall opts, c ≠ .openWriter opts) :
    Course { dir := dir } { log := log } c := by
  have hprogram : program none c = pure none := by
    cases c with
    | openWriter opts => exact absurd rfl (hc opts)
    | append | sync | rotate | close | deleteSegmentsBefore => rfl
  have hexec : Journal.exec { log := log } c = { log := log } := by
    cases c with
    | openWriter opts => exact absurd rfl (hc opts)
    | append | sync | rotate | close | deleteSegmentsBefore => cases log <;> rfl
  refine ⟨[], dir, none, ?_, ?_, ?_⟩
  · rw [hprogram]
    exact Proc.Takes.pure _ _
  · intro d hd
    cases hd
  · rw [hexec]
    exact Matches.idle h

theorem Matches.course {p : Process} {j : Journal} (h : Matches p j) (c : Call) :
    Course p j c := by
  by_cases hopen : exists opts, c = .openWriter opts
  · rcases hopen with ⟨opts, rfl⟩
    exact course_openWriter h.holds p.writer j.session opts
  · have hc : forall opts, c ≠ .openWriter opts := fun opts heq => hopen ⟨opts, heq⟩
    cases h with
    | idle hdir => exact course_idle hdir hc
    | live hvalid hs => exact course_live hvalid hs hc

theorem Journal.log_exec_mem (j : Journal) (c : Call) :
    (j.exec c).log ∈ j.log :: (j.stages c).map some := by
  show (j.stages c).getLast?.or j.log ∈ _
  cases hlast : (j.stages c).getLast? with
  | none => exact List.mem_cons_self
  | some l =>
      exact List.mem_cons_of_mem _ (List.mem_map_of_mem (List.mem_of_getLast? hlast))

theorem Matches.exec {p : Process} {j : Journal} {a : Action} (h : Matches p j) :
    exists j', Journal.Step j a j' ∧ Matches (p.exec a) j' := by
  cases a with
  | call c =>
      rcases h.course c with ⟨ts, dir, w, htakes, _, hmatch⟩
      refine ⟨j.exec c, Journal.Step.call, ?_⟩
      have hrun : program p.writer c p.dir = { passed := ts, final := dir, result := w } :=
        htakes
      rw [Process.exec, hrun]
      exact hmatch
  | crash c steps keep =>
      rcases h.course c with ⟨ts, dir, w, htakes, hpassed, hmatch⟩
      have hstopped : exists log, log ∈ j.log :: (j.stages c).map some ∧
          Holds ((program p.writer c).stopped steps p.dir) log := by
        rcases htakes.stopped (n := steps) with heq | hmem | heq
        · rw [heq]
          exact ⟨j.log, List.mem_cons_self, h.holds⟩
        · exact hpassed _ hmem
        · rw [heq]
          exact ⟨_, j.log_exec_mem c, hmatch.holds⟩
      rcases hstopped with ⟨log, hlog, hholds⟩
      rcases hholds.cut keep with ⟨log', hlost, hcut⟩
      exact ⟨_, Journal.Step.crash hlog hlost, Matches.idle hcut⟩

/-!
## Replay
-/

section Replay

variable {σ ε : Type} {fn : σ -> Bytes -> Except ε σ}

theorem replaySegment_eq {dir : Dir} {newest : Bool} {id : Nat} {records : List Bytes}
    {t : Bytes} (hread : dir.read id = some (framing.frames records ++ t))
    (hvalid : forall p, p ∈ records -> framing.valid p) (ht : framing.Tail t)
    (hnewest : newest = false -> t = []) (s : σ) :
    replaySegment fn dir newest id s = (records.foldlM fn s).mapError .callback := by
  have hrecords := Framing.records_frames_tail hvalid ht
  have hsnd : (scanRecords fn (framing.frames records ++ t) s).2 = records.foldlM fn s := by
    rw [scanRecords_snd, hrecords]
  rw [replaySegment, hread]
  dsimp only
  rw [hsnd]
  cases hfold : records.foldlM fn s with
  | error e => rfl
  | ok s' =>
      have hfst : (scanRecords fn (framing.frames records ++ t) s).1 =
          (framing.frames records).length := by
        have hclean := scanRecords_fst (hsnd.trans hfold)
        rw [hrecords] at hclean
        exact hclean
      dsimp only
      rw [hfst, if_neg]
      · rfl
      · intro hbad
        apply hbad.left
        rw [hnewest hbad.right, List.append_nil]

theorem read_of_mem {dir : Dir} (hids : dir.ids.Nodup) {x : Segment} (hx : x ∈ dir) :
    dir.read x.id = some x.bytes := by
  rw [Dir.read, find?_key_of_mem hids hx]
  rfl

theorem replayFrom_eq {dir : Dir} {l : Log} {t : Bytes} (hvalid : l.Valid)
    (ht : framing.Tail t)
    (hread : forall x, x ∈ l.files t -> dir.read x.id = some x.bytes) (s : σ) :
    replayFrom fn dir (List.range' l.first (l.older.length + 1)) s =
      (l.payloads.foldlM fn s).mapError .callback := by
  induction hold : l.older generalizing l s with
  | nil =>
      have hnewest : dir.read l.first = some (framing.frames l.newest ++ t) := by
        have hlast := hread (l.newestFile t) (List.mem_append_right _ List.mem_cons_self)
        have hid : (l.newestFile t).id = l.first := by
          show l.first + l.older.length = l.first
          rw [hold, List.length_nil, Nat.add_zero]
        rwa [hid] at hlast
      have hpayloads : l.payloads = l.newest := by
        rw [Log.payloads, hold]
        rfl
      rw [hpayloads]
      exact replaySegment_eq hnewest hvalid.newest ht (fun h => by cases h) s
  | cons records rest ih =>
      have hfiles : l.files t = Segment.mk l.first (framing.frames records)
          (framing.frames records).length :: (l.dropOldest 1).files t :=
        Log.files_eq_cons hold t
      have hfirst : dir.read l.first = some (framing.frames records ++ []) := by
        rw [List.append_nil]
        apply hread (Segment.mk l.first (framing.frames records) _)
        rw [hfiles]
        exact List.mem_cons_self
      have hrecords : forall p, p ∈ records -> framing.valid p :=
        hvalid.older (by rw [hold]; exact List.mem_cons_self)
      have hrest : (l.dropOldest 1).older = rest := by
        show l.older.drop 1 = rest
        rw [hold]
        rfl
      have hpayloads : l.payloads = records ++ (l.dropOldest 1).payloads := by
        rw [Log.payloads, Log.payloads, hold, hrest, List.flatten_cons, List.append_assoc]
        rfl
      have htail : forall s', replayFrom fn dir
          (List.range' (l.first + 1) (rest.length + 1)) s' =
            ((l.dropOldest 1).payloads.foldlM fn s').mapError .callback := by
        intro s'
        refine ih (hvalid.dropOldest 1) ?_ s' hrest
        intro x hx
        apply hread
        rw [hfiles]
        exact List.mem_cons_of_mem _ hx
      rw [hpayloads, List.foldlM_append, List.length_cons, List.range'_succ,
        List.range'_succ, replayFrom,
        replaySegment_eq hfirst hrecords (Or.inl rfl) (fun _ => rfl)]
      cases records.foldlM fn s with
      | error e => rfl
      | ok s' =>
          have hnext := htail s'
          rw [List.range'_succ] at hnext
          show (if l.first + 1 ≠ l.first + 1 then _ else _) = _
          rw [if_neg (not_not.mpr rfl), hnext]
          rfl

theorem replay_of_holds {dir : Dir} {log : Option Log} (h : Holds dir log) (s : σ) :
    replay fn dir s =
      (((log.map Log.payloads).getD []).foldlM fn s).mapError .callback := by
  cases log with
  | none =>
      have hdir : dir = [] := h
      subst hdir
      rfl
  | some l =>
      rcases h with ⟨hvalid, t, ht, rfl⟩
      have hnodup : (l.files t).ids.Nodup := by
        rw [Log.ids_files]
        exact List.nodup_range' 1
      rw [replay, Log.listSegments_files]
      exact replayFrom_eq hvalid ht (fun x hx => read_of_mem hnodup hx) s

end Replay

/-- Whatever calls are made, and wherever crashes stop them: the replay ends
with the records that the specification has, in their order, and no error but
one of the callback. -/
theorem replay_specified (as : List Action) :
    exists j, Along Journal.Step {} as j ∧
      forall (σ ε : Type) (fn : σ -> Bytes -> Except ε σ) (s : σ),
        replay fn (as.foldl Process.exec {}).dir s =
            (j.payloads.foldlM fn s).mapError .callback ∧
          forall e, replay fn (as.foldl Process.exec {}).dir s = .error e ->
            ¬ e.IsCorrupt := by
  have hstart : Matches {} {} := Matches.idle rfl
  have hstep : forall p j a, Matches p j ->
      exists j', Journal.Step j a j' ∧ Matches (p.exec a) j' :=
    fun p j a h => h.exec
  rcases Along.of_simulation hstep as hstart with ⟨j, hrun, hmatch⟩
  refine ⟨j, hrun, fun σ ε fn s => ?_⟩
  have hreplay : replay fn (as.foldl Process.exec {}).dir s =
      (j.payloads.foldlM fn s).mapError .callback := replay_of_holds hmatch.holds s
  refine ⟨hreplay, fun e he hcorrupt => ?_⟩
  rw [hreplay] at he
  cases hfold : j.payloads.foldlM fn s with
  | ok s' =>
      rw [hfold] at he
      cases he
  | error e' =>
      rw [hfold] at he
      cases he
      exact hcorrupt

end Wal
end Basalt
