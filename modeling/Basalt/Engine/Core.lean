import Basalt.Lib.Run
import Basalt.Engine.Compaction
import Basalt.Manifest.VersionSet
import Basalt.Wal.Batch

/-!
# The engine

Writes go to the log and to the memtable; full memtables are sealed, and flushed
to tables in the background, which compactions merge.  A step is what a goroutine
does between two waits, with the mutex held; the calls that wait on the condition
variable are kept with the loop they wait in, and a broadcast wakes all of them.

What the operating system decides is an argument of the step: failed writes, and
the heights in the skiplist.  An engine may be closed and opened again, on the files
it has left.
-/

namespace Basalt
namespace Engine

open Lib Base Manifest Wal Compaction

/-!
## The memtable
-/

def nodeOverhead : Nat := 64

def ptrSize : Nat := 8

def maxHeight : Nat := 12

/-- The largest sequence number that fits the trailer. -/
def maxSeq : Nat := 2 ^ 56 - 1

/-- The pairs are in ascending order; every memtable has a number of its own. -/
structure MemTable where
  id : Nat
  pairs : List Pair := []
  size : Nat := 0
deriving DecidableEq

/-- What stops the process, or a step that is not possible. -/
inductive CoreFault where
  | seqExceeds (seq : Nat)
  | duplicateKey
  | nilMemtable
  | disabled
deriving DecidableEq, Repr

def opPair (seq : Nat) : Op -> Pair
  | .put userKey value => { key := appendInternalKey userKey seq .put, value := value }
  | .delete userKey => { key := appendInternalKey userKey seq .delete, value := [] }

/-- The place of a pair in a sorted list; a key that is there already is `none`. -/
def insertPair (p : Pair) : List Pair -> Option (List Pair)
  | [] => some [p]
  | q :: qs =>
      match p.compare q with
      | .lt => some (p :: q :: qs)
      | .eq => none
      | .gt => (insertPair p qs).map (q :: ·)

namespace MemTable

/-- `MemTable.Add`; the entry is charged for its height in the list. -/
def add (m : MemTable) (seq : Nat) (op : Op) (height : Fin maxHeight) :
    Except CoreFault MemTable :=
  let p := opPair seq op
  if maxSeq < seq then .error (.seqExceeds seq)
  else
    (insertPair p m.pairs).elim (.error .duplicateKey) fun pairs =>
      .ok { m with
        pairs := pairs
        size := m.size + (p.key.length + p.value.length) + nodeOverhead +
          (height.val + 1) * ptrSize }

def addAll (m : MemTable) (seq : Nat) (height : Nat -> Fin maxHeight) :
    List Op -> Except CoreFault MemTable
  | [] => .ok m
  | op :: ops => do
      let m <- m.add seq op (height seq)
      m.addAll (seq + 1) height ops

end MemTable

/-!
## The state
-/

/-- Which loop of `makeRoomLocked` a writer waits in. -/
inductive Wait where
  | imm
  | l0
deriving DecidableEq, Repr

structure Waiting where
  ops : List Op
  wait : Wait
  awake : Bool := false
deriving DecidableEq, Repr

structure Sealed where
  imm : MemTable
  sealSeq : Nat
  bound : Nat
deriving DecidableEq

/-- What `flushImm` has read under the mutex. -/
structure Captured where
  num : Nat
  imm : MemTable
  sealSeq : Nat
  bound : Nat
deriving DecidableEq

def Captured.sealed (cap : Captured) : Sealed where
  imm := cap.imm
  sealSeq := cap.sealSeq
  bound := cap.bound

def Captured.output (cap : Captured) : Output where
  fileNum := cap.num
  pairs := cap.imm.pairs

inductive FlushStage where
  | writing
  | written
  | failing
  | pruning
deriving DecidableEq, Repr

inductive Flusher where
  | starting
  | running (cap : Captured) (stage : FlushStage)
deriving DecidableEq

inductive CompactStage where
  | merging (nums : List Nat)
  | merged (outs : List Output)
  | finishing (failed : Bool)

structure Compacting where
  c : Compaction
  stage : CompactStage := .merging []

/-- A call of `Checkpoint`, in its first or its second loop, and how many batches
were committed when it began. -/
structure Checkpointing where
  dst : Nat
  before : Nat
  second : Bool := false
  awake : Bool := false
deriving DecidableEq, Repr

structure Returned where
  dst : Nat
  before : Nat
  ok : Bool
deriving DecidableEq, Repr

structure Checkpoint where
  before : Nat
  version : Version
  lastSeq : Nat

inductive Dst where
  | foreign
  | checkpoint (k : Checkpoint)

/-- The engine, with its files.  The read state lists the tables of the current
version.  `diskSeq` is the last sequence number of the manifest, `segments` the log
with the batches of every segment, `wal` the segment that is written, if the log is
enabled, `sources` the contents of the tables and `dsts` the directories for the
checkpoints.  The memtables that were sealed and flushed, the batches that were
committed and the calls of `Checkpoint` that have returned are kept too. -/
structure Core where
  opts : Options := Options.defaults {}
  version : Version := {}
  logNumber : Nat := 0
  lastSeq : Nat := 0
  diskSeq : Nat := 0
  nextFileNum : Nat := 1
  vsErr : Bool := false
  sources : Sources := fun _ => []
  segments : List (Nat × List Batch) := []
  wal : Option Nat := none
  seq : Nat := 0
  mem : MemTable := { id := 0 }
  imm : Option MemTable := none
  mems : Nat := 1
  immSeq : Nat := 0
  immBound : Nat := 0
  compactPtr : Level -> Option Bytes := fun _ => none
  writers : List Waiting := []
  flushers : List Flusher := []
  compacting : Option Compacting := none
  checkpointing : List Checkpointing := []
  bgErr : Bool := false
  closing : Bool := false
  closed : Bool := true
  sealed : List Sealed := []
  flushed : List Captured := []
  committed : List Batch := []
  dsts : Nat -> Option Dst := fun _ => none
  returned : List Returned := []

namespace Core

def l0 (c : Core) : List FileMeta :=
  c.version.files ⟨0, by decide⟩

def broadcast (c : Core) : Core :=
  { c with
    writers := c.writers.map fun w => { w with awake := true }
    checkpointing := c.checkpointing.map fun k => { k with awake := true } }

def maybeScheduleCompaction (c : Core) : Core :=
  if c.compacting.isSome ∨ c.closing ∨ c.bgErr then c
  else
    match pickCompaction c.opts c.version c.compactPtr with
    | none => c
    | some (k, compactPtr) => { c with compactPtr := compactPtr, compacting := some { c := k } }

/-!
## Seals
-/

def freeze (c : Core) (bound : Nat) : Core :=
  { c with
    imm := some c.mem
    mem := { id := c.mems }
    mems := c.mems + 1
    immSeq := c.seq
    immBound := bound
    sealed := c.sealed ++ [{ imm := c.mem, sealSeq := c.seq, bound := bound }] }

/-- `sealLocked`; `rotated` tells whether the log can be rotated. -/
def sealLocked (c : Core) (rotated : Bool) : Core × Bool :=
  match c.wal with
  | some id =>
      if rotated then
        ({ c with wal := some (id + 1), segments := c.segments ++ [(id + 1, [])] }.freeze (id + 1),
          true)
      else ({ c with bgErr := true, immBound := 0 }, false)
  | none => (c.freeze 0, true)

def sealAndFlush (c : Core) (rotated : Bool) : Core × Bool :=
  match c.sealLocked rotated with
  | (c, false) => (c, false)
  | (c, true) => ({ c with flushers := c.flushers ++ [.starting] }, true)

/-!
## Writes
-/

inductive Room where
  | go
  | sleep (wait : Wait)
  | fail

/-- From the stall of level 0 on. -/
def stallL0 (c : Core) (rotated : Bool) : Core × Room :=
  if c.opts.l0StopThreshold ≤ c.l0.length ∧ ¬ c.bgErr ∧ ¬ c.closing then
    (c.maybeScheduleCompaction, .sleep .l0)
  else if c.bgErr then (c, .fail)
  else if (c.mem.size : Int) < c.opts.memTableSize then (c, .go)
  else
    match c.sealAndFlush rotated with
    | (c, false) => (c, .fail)
    | (c, true) => (c, .go)

def waitImm (c : Core) (rotated : Bool) : Core × Room :=
  if c.imm.isSome ∧ ¬ c.bgErr then (c, .sleep .imm)
  else if c.bgErr then (c, .fail)
  else c.stallL0 rotated

def makeRoomLocked (c : Core) (rotated : Bool) : Core × Room :=
  if (c.mem.size : Int) < c.opts.memTableSize then (c, .go) else c.waitImm rotated

/-- A writer that was woken goes on in the loop it waited in. -/
def resume (c : Core) (rotated : Bool) : Wait -> Core × Room
  | .imm => c.waitImm rotated
  | .l0 => c.stallL0 rotated

end Core

/-- How an append to the log ends; a full segment is followed by a new one.  One that
fails may have written its record before. -/
inductive Append where
  | appended (full : Bool)
  | tooLarge
  | failed (written : Bool)
deriving DecidableEq, Repr

structure WriteEnv where
  rotated : Bool := true
  append : Append := .appended false
  height : Nat -> Fin maxHeight := fun _ => ⟨0, by decide⟩

namespace Core

def logBatch (segments : List (Nat × List Batch)) (id : Nat) (b : Batch) :
    List (Nat × List Batch) :=
  segments.map fun s => if s.1 = id then (s.1, s.2 ++ [b]) else s

def publish (c : Core) (b : Batch) (height : Nat -> Fin maxHeight) : Except CoreFault Core := do
  let mem <- c.mem.addAll b.baseSeq height b.ops
  pure { c with
    mem := mem
    seq := c.seq + b.ops.length
    committed := c.committed ++ [b] }

def commit (c : Core) (ops : List Op) (env : WriteEnv) : Except CoreFault Core :=
  let b : Batch := { baseSeq := c.seq + 1, ops := ops }
  match c.wal with
  | some id =>
      match env.append with
      | .tooLarge => .ok c
      | .failed written =>
          let segments := if written then logBatch c.segments id b else c.segments
          .ok { c with bgErr := true, segments := segments }
      | .appended full =>
          let segments := logBatch c.segments id b
          if full then
            { c with segments := segments ++ [(id + 1, [])], wal := some (id + 1) }.publish b
              env.height
          else { c with segments := segments }.publish b env.height
  | none => c.publish b env.height

def proceed (ops : List Op) (env : WriteEnv) : Core × Room -> Except CoreFault Core
  | (c, .sleep wait) => .ok { c with writers := c.writers ++ [{ ops := ops, wait := wait }] }
  | (c, .fail) => .ok c
  | (c, .go) => c.commit ops env

/-- A call of `write`; `Close` must not race other calls. -/
def write (c : Core) (ops : List Op) (env : WriteEnv) : Except CoreFault Core :=
  if c.closed ∨ c.closing then .error .disabled
  else if c.bgErr then .ok c
  else proceed ops env (c.makeRoomLocked env.rotated)

/-- A writer that was woken has the mutex again. -/
def wake (c : Core) (j : Nat) (env : WriteEnv) : Except CoreFault Core :=
  match c.writers[j]? with
  | some w =>
      if w.awake then
        proceed w.ops env ({ c with writers := c.writers.eraseIdx j }.resume env.rotated w.wait)
      else .error .disabled
  | none => .error .disabled

end Core

/-!
## The manifest
-/

/-- How the logging of an edit ends: an error, or the record is durable, and the
manifest may be rotated after it. -/
inductive Logged where
  | failed
  | written
  | rotated (ok : Bool)
deriving DecidableEq, Repr

namespace Core

def versionSet (c : Core) : VersionSet where
  opts := {}
  cur := c.version
  logNumber := c.logNumber
  nextFileNum := c.nextFileNum
  lastSeq := c.lastSeq

/-- `VersionSet.Apply`, and whether it succeeds; any error is one for good. -/
def apply (c : Core) (e : VersionEdit) (logged : Logged) : Core × Bool :=
  match c.vsErr, c.versionSet.check e, logged with
  | false, .ok v, .written =>
      ({ c with
        version := v
        logNumber := e.logNumber.getD c.logNumber
        lastSeq := e.lastSeq.getD c.lastSeq
        diskSeq := e.lastSeq.getD c.lastSeq }, true)
  | false, .ok v, .rotated ok =>
      ({ c with
        version := v
        logNumber := e.logNumber.getD c.logNumber
        lastSeq := e.lastSeq.getD c.lastSeq
        diskSeq := e.lastSeq.getD c.lastSeq
        nextFileNum := c.nextFileNum + 1
        vsErr := !ok }, true)
  | _, _, _ => ({ c with vsErr := true }, false)

end Core

/-!
## Flushes
-/

inductive FlushEvent where
  | start
  | write (ok : Bool)
  | apply (logged : Logged)
  | finish (pruned : Bool)
deriving DecidableEq, Repr

namespace Core

def flushEdit (sizes : Sizes) (cap : Captured) : VersionEdit where
  logNumber := some cap.bound
  lastSeq := some cap.sealSeq
  addFiles := [cap.output.fileMeta 0 sizes.file]

/-- `flushImm`.  Nothing to flush is a nil pointer. -/
def flushImm (sizes : Sizes) (c : Core) (j : Nat) (event : FlushEvent) :
    Except CoreFault Core :=
  match c.flushers[j]?, event with
  | some .starting, .start =>
      c.imm.elim (.error .nilMemtable) fun imm =>
        .ok { c with
          nextFileNum := c.nextFileNum + 1
          flushers := c.flushers.set j (.running {
            num := c.nextFileNum
            imm := imm
            sealSeq := c.immSeq
            bound := c.immBound } .writing) }
  | some (.running cap .writing), .write true =>
      .ok { c with
        sources := written c.sources [cap.output]
        flushers := c.flushers.set j (.running cap .written) }
  | some (.running cap .writing), .write false =>
      .ok { c with flushers := c.flushers.set j (.running cap .failing) }
  | some (.running cap .written), .apply logged =>
      match c.apply (flushEdit sizes cap) logged with
      | (c, false) => .ok { c with flushers := c.flushers.set j (.running cap .failing) }
      | (c, true) =>
          .ok ({ c with
            imm := none
            flushed := c.flushed ++ [cap]
            flushers := c.flushers.set j (.running cap .pruning) }.maybeScheduleCompaction.broadcast)
  | some (.running _ .failing), .finish _ =>
      .ok ({ c with bgErr := true, flushers := c.flushers.eraseIdx j }.broadcast)
  | some (.running cap .pruning), .finish pruned =>
      let segments :=
        if c.wal.isSome ∧ pruned then c.segments.filter fun s => cap.bound ≤ s.1 else c.segments
      .ok ({ c with
        segments := segments
        bgErr := c.bgErr || !pruned
        flushers := c.flushers.eraseIdx j }.broadcast)
  | _, _ => .error .disabled

end Core

/-!
## Compactions
-/

inductive CompactEvent where
  | create
  | merge (ok : Bool)
  | apply (logged : Logged)
  | finish (err : Bool)
deriving DecidableEq, Repr

namespace Core

def allocated (c : Core) (nums : List Nat) (i : Nat) : Nat :=
  nums.getD i (c.nextFileNum + i)

def compact (sizes : Sizes) (c : Core) (event : CompactEvent) : Except CoreFault Core :=
  match c.compacting with
  | none => .error .disabled
  | some k =>
      match k.stage, event with
      | .merging nums, .create =>
          .ok { c with
            nextFileNum := c.nextFileNum + 1
            compacting := some { k with stage := .merging (nums ++ [c.nextFileNum]) } }
      | .merging nums, .merge true =>
          match k.c.outputs c.opts sizes.estimated (c.allocated nums) c.sources
            (fun _ _ => (none : Option Unit)) with
          | .error _ => .ok { c with compacting := some { k with stage := .finishing true } }
          | .ok outs =>
              if outs.map Output.fileNum = nums then
                .ok { c with
                  sources := written c.sources outs
                  compacting := some { k with stage := .merged outs } }
              else .error .disabled
      | .merging _, .merge false =>
          .ok { c with compacting := some { k with stage := .finishing true } }
      | .merged outs, .apply logged =>
          match c.apply (k.c.edit sizes.file outs) logged with
          | (c, ok) => .ok { c with compacting := some { k with stage := .finishing !ok } }
      | .finishing failed, .finish err =>
          let c := { c with compacting := none, bgErr := c.bgErr || failed || err }
          if failed ∨ err then .ok c.broadcast
          else .ok c.maybeScheduleCompaction.broadcast
      | _, _ => .error .disabled

/-!
## Checkpoints
-/

def returns (c : Core) (k : Checkpointing) (ok : Bool) : Core :=
  { c with returned := c.returned ++ [{ dst := k.dst, before := k.before, ok := ok }] }

end Core

inductive CaptureStep where
  | mkdir
  | manifest
  | link (num : Nat)
  | sync
  | apply
  | close
deriving DecidableEq, Repr

def freshSet : VersionSet where
  opts := Manifest.Options.withDefaults {}
  nextFileNum := 2
  manifestNum := 1

def linkTables (fault : CaptureStep -> Bool) : List FileMeta -> Option (List FileMeta)
  | [] => some []
  | f :: fs => if fault (.link f.fileNum) then none else (linkTables fault fs).map (f :: ·)

namespace Core

/-- The tables are linked into the fresh directory, and the boundary is stamped. -/
def fill (c : Core) (before : Nat) (fault : CaptureStep -> Bool) : Option Checkpoint := do
  guard (¬ fault .manifest)
  let files <- linkTables fault c.version.all
  guard (¬ fault .sync)
  let v <- (freshSet.check { addFiles := files, lastSeq := some c.lastSeq }).toOption
  guard (¬ (fault .apply ∨ fault .close))
  pure { before := before, version := v, lastSeq := c.lastSeq }

/-- The end of `Checkpoint`; a directory that cannot be filled is removed again. -/
def capture (c : Core) (k : Checkpointing) (fault : CaptureStep -> Bool) : Core :=
  if fault .mkdir ∨ (c.dsts k.dst).isSome then c.returns k false
  else
    (c.fill k.before fault).elim (c.returns k false) fun made =>
      { c.returns k true with dsts := Function.update c.dsts k.dst (some (.checkpoint made)) }

/-- `Checkpoint`, from the loop it is in to the next wait. -/
def checkpointFrom (c : Core) (k : Checkpointing) (rotated : Bool) (fault : CaptureStep -> Bool) :
    Core :=
  if c.flushers ≠ [] ∨ c.compacting.isSome ∨ (c.imm.isSome ∧ ¬ k.second) then
    if (¬ k.second ∧ (c.closed ∨ c.closing)) ∨ c.bgErr then c.returns k false
    else { c with checkpointing := c.checkpointing ++ [{ k with awake := false }] }
  else if c.closed ∨ c.closing ∨ c.bgErr then c.returns k false
  else if ¬ k.second ∧ 0 < c.mem.size then
    match c.sealAndFlush rotated with
    | (c, false) => c.returns k false
    | (c, true) =>
        { c with checkpointing := c.checkpointing ++ [{ k with second := true, awake := true }] }
  else c.capture k fault

def checkpoint (c : Core) (dst : Nat) (rotated : Bool) (fault : CaptureStep -> Bool) :
    Except CoreFault Core :=
  if c.closed ∨ c.closing then .error .disabled
  else .ok (c.checkpointFrom { dst := dst, before := c.committed.length } rotated fault)

def wakeCheckpoint (c : Core) (j : Nat) (rotated : Bool) (fault : CaptureStep -> Bool) :
    Except CoreFault Core :=
  match c.checkpointing[j]? with
  | some k =>
      if k.awake then
        .ok ({ c with checkpointing := c.checkpointing.eraseIdx j }.checkpointFrom k rotated fault)
      else .error .disabled
  | none => .error .disabled

/-!
## Close and Open
-/

def close (c : Core) : Except CoreFault Core :=
  if c.closed ∨ c.closing ∨ c.writers ≠ [] ∨ c.checkpointing ≠ [] then .error .disabled
  else .ok { c with closing := true }

/-- The rest of `Close`: once the background work is drained, the memtable is flushed
too, and then the engine is closed. -/
def closeDrained (c : Core) (rotated : Bool) : Except CoreFault Core :=
  if c.closed ∨ ¬ c.closing ∨ c.flushers ≠ [] ∨ c.compacting.isSome ∨
      (c.imm.isSome ∧ ¬ c.bgErr) then .error .disabled
  else if ¬ c.bgErr ∧ 0 < c.mem.size then
    match c.sealAndFlush rotated with
    | (c, true) => .ok c
    | (c, false) => .ok { c with closed := true, wal := none }
  else .ok { c with closed := true, wal := none }

def replayBatches (height : Nat -> Fin maxHeight) :
    List Batch -> MemTable × Nat -> Except CoreFault (MemTable × Nat)
  | [], r => .ok r
  | b :: bs, r => do
      let mem <- r.1.addAll b.baseSeq height b.ops
      replayBatches height bs
        (mem, if b.ops = [] then r.2 else max r.2 (b.baseSeq + b.ops.length - 1))

/-- The engine over the files that were left, with what the log has brought back. -/
def reopened (c : Core) (o : Options) (disableWAL : Bool) (segments : List (Nat × List Batch))
    (replayed : MemTable × Nat) : Core :=
  let id := (segments.getLast?).elim 1 fun s => s.1 + 1
  { opts := o.defaults
    version := c.version
    logNumber := c.logNumber
    lastSeq := replayed.2
    diskSeq := c.diskSeq
    nextFileNum := c.nextFileNum + 1
    sources := c.sources
    segments := if disableWAL then segments else segments ++ [(id, [])]
    wal := if disableWAL then none else some id
    seq := replayed.2
    mem := replayed.1
    mems := c.mems + 1
    closed := false
    committed := c.committed
    dsts := c.dsts
    returned := c.returned }

/-- The segments that are replayed: those below the log number hold only flushed
data. -/
def unflushed (c : Core) : List (Nat × List Batch) :=
  c.segments.filter fun s => c.logNumber ≤ s.1

def openDb (c : Core) (o : Options) (disableWAL disableCompaction : Bool)
    (height : Nat -> Fin maxHeight) : Except CoreFault Core :=
  let batches := c.unflushed.flatMap Prod.snd
  if ¬ c.closed then .error .disabled
  else if disableWAL ∧ batches ≠ [] then .ok { c with segments := c.unflushed }
  else do
    let replayed <- replayBatches height batches ({ id := c.mems }, c.diskSeq)
    let c := c.reopened o disableWAL c.unflushed replayed
    pure (if disableCompaction then c else c.maybeScheduleCompaction)

end Core

/-!
## The machine
-/

inductive CoreAction where
  | openDb (o : Options) (disableWAL disableCompaction : Bool) (height : Nat -> Fin maxHeight)
  | write (ops : List Op) (env : WriteEnv)
  | wake (j : Nat) (env : WriteEnv)
  | flushImm (j : Nat) (event : FlushEvent)
  | compact (event : CompactEvent)
  | checkpoint (dst : Nat) (rotated : Bool) (fault : CaptureStep -> Bool)
  | wakeCheckpoint (j : Nat) (rotated : Bool) (fault : CaptureStep -> Bool)
  | close
  | closeDrained (rotated : Bool)

def Core.exec (sizes : Sizes) (c : Core) : CoreAction -> Except CoreFault Core
  | .openDb o disableWAL disableCompaction height => c.openDb o disableWAL disableCompaction height
  | .write ops env => c.write ops env
  | .wake j env => c.wake j env
  | .flushImm j event => c.flushImm sizes j event
  | .compact event => c.compact sizes event
  | .checkpoint dst rotated fault => c.checkpoint dst rotated fault
  | .wakeCheckpoint j rotated fault => c.wakeCheckpoint j rotated fault
  | .close => c.close
  | .closeDrained rotated => c.closeDrained rotated

end Engine
end Basalt
