import Mathlib.Data.List.Sort
import Basalt.Lib.Proc
import Basalt.Wal.Record

/-!
# The write-ahead log

Records are appended to the newest of a sequence of segment files, under
increasing numbers.  A segment is made durable before its successor is created,
and a writer never appends to a segment of an earlier incarnation, so that only
the newest segment can end in a torn record.
-/

namespace Basalt
namespace Wal

open Lib

inductive SyncPolicy where
  | everyRecord
  | manual
deriving DecidableEq, Repr

/-- A size that is not positive asks for the default. -/
structure Options where
  segmentSize : Int := 0
  maxRecordSize : Int := 0
  sync : SyncPolicy := .everyRecord
deriving DecidableEq, Repr

def Options.withDefaults (opts : Options) : Options :=
  let segmentSize := if opts.segmentSize ≤ 0 then 4194304 else opts.segmentSize
  let maxRecordSize := if opts.maxRecordSize ≤ 0 then 67108864 else opts.maxRecordSize
  { opts with
    segmentSize := segmentSize
    maxRecordSize := if maxRecordSize > maxPayload then maxPayload else maxRecordSize }

inductive Error where
  | exist (id : Nat)
  | notExist (id : Nat)
  | recordTooLarge
  | closed
  | failed (cause : Error)
  | panic (p : Panic)
deriving DecidableEq, Repr

/-!
## The directory

A segment file has its contents and the length up to which they are synced.
Every change of the directory is followed by a sync of it before anything else
happens, so a change that a power failure undoes is one that was not made.
-/

structure Segment where
  id : Nat
  bytes : Bytes := []
  synced : Nat := 0
deriving DecidableEq, Repr

abbrev Dir := List Segment

namespace Dir

def ids (dir : Dir) : List Nat :=
  dir.map Segment.id

def update (dir : Dir) (id : Nat) (f : Segment -> Segment) : Dir :=
  dir.map fun s => if s.id = id then f s else s

def read (dir : Dir) (id : Nat) : Option Bytes :=
  (dir.find? fun s => s.id = id).map Segment.bytes

end Dir

def listSegments (dir : Dir) : List Nat :=
  dir.ids.insertionSort (· ≤ ·)

def createFile (id : Nat) : Proc Dir (Except Error Unit) := do
  let dir <- Proc.get
  if id ∈ dir.ids then pure (.error (.exist id))
  else do
    Proc.step fun dir => dir ++ [{ id := id }]
    pure (.ok ())

def changeFile (id : Nat) (f : Segment -> Segment) : Proc Dir (Except Error Unit) := do
  let dir <- Proc.get
  if id ∈ dir.ids then do
    Proc.step fun dir => dir.update id f
    pure (.ok ())
  else pure (.error (.notExist id))

def writeFile (id : Nat) (buf : Bytes) : Proc Dir (Except Error Unit) :=
  changeFile id fun s => { s with bytes := s.bytes ++ buf }

def syncFile (id : Nat) : Proc Dir (Except Error Unit) :=
  changeFile id fun s => { s with synced := s.bytes.length }

def truncateFile (id size : Nat) : Proc Dir (Except Error Unit) :=
  changeFile id fun s =>
    { s with bytes := s.bytes.take size, synced := min s.synced size }

def removeFile (id : Nat) : Proc Dir (Except Error Unit) := do
  let dir <- Proc.get
  if id ∈ dir.ids then do
    Proc.step fun dir => dir.filter fun s => s.id ≠ id
    pure (.ok ())
  else pure (.error (.notExist id))

def readFile (id : Nat) : Proc Dir (Except Error Bytes) := do
  let dir <- Proc.get
  pure (match dir.read id with
    | none => .error (.notExist id)
    | some bytes => .ok bytes)

/-!
## The writer
-/

structure Writer where
  opts : Options
  id : Nat
  size : Nat := 0
  err : Option Error := none
  closed : Bool := false
deriving DecidableEq, Repr

namespace Writer

def fail (w : Writer) (e : Error) : Writer :=
  { w with err := w.err.or (some (.failed e)) }

def refusal (w : Writer) : Option Error :=
  w.err.or (if w.closed then some .closed else none)

def openSegment (w : Writer) : Proc Dir (Except (Writer × Error) Writer) :=
  (createFile w.id).orFail (fun e => pure (.error (w, e))) fun _ =>
    pure (.ok { w with size := 0 })

def rotate (w : Writer) : Proc Dir (Except (Writer × Error) Writer) :=
  (syncFile w.id).orFail (fun e => pure (.error (w, e))) fun _ =>
    openSegment { w with id := w.id + 1 }

def syncRecord (w : Writer) : Proc Dir (Except Error Unit) :=
  if w.opts.sync = .everyRecord then syncFile w.id else pure (.ok ())

def rotateFull (w : Writer) : Proc Dir (Except (Writer × Error) Writer) :=
  if (w.size : Int) ≥ w.opts.segmentSize then w.rotate else pure (.ok w)

def appendFrame (w : Writer) (buf : Bytes) : Proc Dir (Writer × Except Error Nat) :=
  (writeFile w.id buf).orFail (fun e => pure (w.fail e, .error e)) fun _ =>
    let written := { w with size := w.size + buf.length }
    written.syncRecord.orFail (fun e => pure (written.fail e, .error e)) fun _ =>
      written.rotateFull.orFail (fun r => pure (r.1.fail r.2, .error r.2)) fun w' =>
        pure (w', .ok w.id)

def append (w : Writer) (payload : Bytes) : Proc Dir (Writer × Except Error Nat) :=
  match w.refusal with
  | some e => pure (w, .error e)
  | none =>
      if (payload.length : Int) > w.opts.maxRecordSize then
        pure (w, .error .recordTooLarge)
      else
        match appendRecord [] payload with
        | .error p => pure (w, .error (.panic p))
        | .ok buf => w.appendFrame buf

def rotateNow (w : Writer) : Proc Dir (Writer × Except Error Unit) :=
  match w.refusal with
  | some e => pure (w, .error e)
  | none => w.rotate.orFail (fun r => pure (r.1.fail r.2, .error r.2)) fun w' =>
      pure (w', .ok ())

def sync (w : Writer) : Proc Dir (Writer × Except Error Unit) :=
  match w.refusal with
  | some e => pure (w, .error e)
  | none => (syncFile w.id).orFail (fun e => pure (w.fail e, .error e)) fun _ =>
      pure (w, .ok ())

def close (w : Writer) : Proc Dir (Writer × Except Error Unit) :=
  if w.closed then pure (w, .ok ())
  else
    let w := { w with closed := true }
    match w.err with
    | some e => pure (w, .error e)
    | none => (syncFile w.id).orFail (fun e => pure (w.fail e, .error e)) fun _ =>
        pure (w, .ok ())

end Writer

/-- Removes segments in the given order; one that is gone already is no
error. -/
def removeBelow (upto : Nat) : List Nat -> Proc Dir (Except Error Unit)
  | [] => pure (.ok ())
  | id :: ids =>
      if id < upto then
        (removeFile id).orFail
          (fun e => if e = .notExist id then removeBelow upto ids else pure (.error e))
          fun _ => removeBelow upto ids
      else removeBelow upto ids

def deleteSegmentsBelow (upto : Nat) : Proc Dir (Except Error Unit) := do
  let dir <- Proc.get
  removeBelow upto (listSegments dir)

/-- The segment being written is never removed. -/
def Writer.deleteSegmentsBefore (w : Writer) (upto : Nat) :
    Proc Dir (Except Error Unit) :=
  deleteSegmentsBelow (min upto w.id)

def cleanLength (buf : Bytes) : Nat :=
  (scanRecords (fun (_ : Unit) _ => (.ok () : Except Empty Unit)) buf ()).1

/-- Cuts a segment at its first record that does not parse.  It is synced
whether or not it is cut: its bytes may only have been in the page cache. -/
def repairTornTail (id : Nat) : Proc Dir (Except Error Unit) :=
  (readFile id).orFail (fun e => pure (.error e)) fun buf =>
    (if cleanLength buf ≠ buf.length then truncateFile id (cleanLength buf)
      else pure (.ok ())).orFail (fun e => pure (.error e)) fun _ => syncFile id

def startWriter (opts : Options) (id : Nat) : Proc Dir (Except Error Writer) :=
  (Writer.openSegment { opts := opts, id := id }).orFail
    (fun r => pure (.error r.2)) fun w => pure (.ok w)

def openWriter (opts : Options) : Proc Dir (Except Error Writer) := do
  let dir <- Proc.get
  match (listSegments dir).getLast? with
  | none => startWriter opts.withDefaults 1
  | some last =>
      (repairTornTail last).orFail (fun e => pure (.error e)) fun _ =>
        startWriter opts.withDefaults (last + 1)

/-!
## The reader
-/

inductive ReplayError (ε : Type) where
  | missingSegment (id : Nat)
  | damagedSegment (id : Nat)
  | notExist (id : Nat)
  | callback (e : ε)
deriving DecidableEq, Repr

def ReplayError.IsCorrupt {ε : Type} : ReplayError ε -> Prop
  | .missingSegment _ => True
  | .damagedSegment _ => True
  | .notExist _ => False
  | .callback _ => False

section Replay

variable {σ ε : Type} (fn : σ -> Bytes -> Except ε σ)

def replaySegment (dir : Dir) (newest : Bool) (id : Nat) (s : σ) :
    Except (ReplayError ε) σ :=
  match dir.read id with
  | none => .error (.notExist id)
  | some buf =>
      match (scanRecords fn buf s).2 with
      | .error e => .error (.callback e)
      | .ok s' =>
          if (scanRecords fn buf s).1 ≠ buf.length ∧ newest = false then
            .error (.damagedSegment id)
          else .ok s'

def replayFrom (dir : Dir) : List Nat -> σ -> Except (ReplayError ε) σ
  | [], s => .ok s
  | [id], s => replaySegment fn dir true id s
  | id :: next :: ids, s => do
      let s <- replaySegment fn dir false id s
      if next ≠ id + 1 then .error (.missingSegment (id + 1))
      else replayFrom dir (next :: ids) s

def replay (dir : Dir) (s : σ) : Except (ReplayError ε) σ :=
  replayFrom fn dir (listSegments dir) s

end Replay

end Wal
end Basalt
