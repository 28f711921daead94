import Basalt.Lib.RefCount
import Basalt.Lib.Run
import Basalt.Engine.CompactionInputs

/-!
# Table handles

Every open table file has a handle that counts its references: the cache of the
engine, the read states that list it, and the compaction that reads it each hold
one.  The model takes the engine apart at the operations on the counts.  What
holds the mutex is in `mu`; a reference that is given up waits in `dropping` until
its `unref` runs, between any two steps of the others.
-/

namespace Basalt
namespace Engine

open Lib Base Manifest

inductive Flush where
  | starting
  | writing (num : Nat)
  | opened (file : FileMeta) (h : Nat)
  | failing
  | pruning

/-- Where a compaction is: it writes its outputs, opens them, or finishes. -/
inductive Stage where
  | merging (outputs : List FileMeta) (num : Option Nat)
  | opening (outputs todo : List FileMeta) (newHandles : List (Nat × Nat))
  | finishing (failed : Bool)

structure Running where
  c : Compaction
  inputs : List Nat
  stage : Stage := .merging [] none

inductive Installer where
  | opener
  | flusher
  | compactor
deriving DecidableEq

inductive Taker where
  | install (who : Installer)
  | sealing
  | scheduling (c : Compaction)

/-- What the holder of the mutex is at: the loop of an install over the files, with
the handles it has listed so far, or a loop that takes references. -/
inductive Section where
  | free
  | listing (who : Installer) (todo : List FileMeta) (levels : List Nat)
  | taking (who : Taker) (todo taken : List Nat)

inductive Life where
  | opening
  | running
  | closing
  | closed
deriving DecidableEq

/-- The state: the handles, by the number of their file, and the read states, by
the handles they list, are pools; handles and read states are positions in them.
`tables` maps file numbers to handles, `readers` are the read states that readers
and iterators have acquired, and `calls` counts the writes and checkpoints that have
not returned. -/
structure Db where
  opts : Options
  version : Version
  nextFileNum : Nat
  compactPtr : Level -> Option Bytes := fun _ => none
  handles : Pool Nat := []
  tables : List (Nat × Nat) := []
  states : Pool (List Nat) := []
  rs : Option Nat := none
  readers : List Nat := []
  dropping : List Nat := []
  flushers : List Flush := []
  compacting : Option Running := none
  mu : Section := .free
  calls : Nat := 0
  bgErr : Bool := false
  life : Life := .opening

/-- A step that is not possible, or one that releases below zero. -/
inductive HandleFault where
  | disabled
  | belowZero
deriving DecidableEq, Repr

structure Props where
  fileSize : Nat
  smallest : Bytes
  largest : Bytes

namespace Db

/-!
## References
-/

def levels (d : Db) (s : Nat) : List Nat :=
  (d.states.vals[s]?).getD []

/-- `readState.release`: the last one gives up the handles. -/
def release (d : Db) (s : Nat) : Except HandleFault Db :=
  match d.states.unref s with
  | some (states, last) =>
      .ok { d with
        states := states
        dropping := if last then d.dropping ++ d.levels s else d.dropping }
  | none => .error .belowZero

/-- `tableHandle.unref`, of one of the references that are given up. -/
def drop (d : Db) (j : Nat) : Except HandleFault Db :=
  match d.dropping[j]? with
  | some h =>
      match d.handles.unref h with
      | some (handles, _) => .ok { d with handles := handles, dropping := d.dropping.eraseIdx j }
      | none => .error .belowZero
  | none => .error .disabled

def table? (d : Db) (num : Nat) : Option Nat :=
  (d.tables.find? fun x => x.1 = num).map Prod.snd

def insertTable (tables : List (Nat × Nat)) (x : Nat × Nat) : List (Nat × Nat) :=
  tables.filter (fun y => y.1 ≠ x.1) ++ [x]

def openTable (d : Db) (num : Nat) : Nat × Db :=
  (d.handles.length, { d with handles := d.handles ++ [{ val := num }] })

/-- The engine gives up its references, at the end of `Close` or when `Open` fails. -/
def releaseFiles (d : Db) : Except HandleFault Db :=
  let next := { d with
    rs := none
    tables := []
    dropping := d.dropping ++ d.tables.map Prod.snd
    mu := .free
    life := .closed }
  d.rs.elim (.ok next) next.release

/-!
## `installVersionLocked`
-/

/-- A file that cannot be opened ends the install; what was opened stays in the
cache. -/
def installFailed (d : Db) : Installer -> Except HandleFault Db
  | .opener => d.releaseFiles
  | .flusher => .ok { d with mu := .free, flushers := d.flushers ++ [.failing] }
  | .compactor =>
      .ok { d with
        mu := .free
        compacting := d.compacting.map fun r => { r with stage := .finishing true } }

/-- The next file of the version; `ok` tells whether it can be opened. -/
def list (d : Db) (ok : Bool) : Except HandleFault Db :=
  match d.mu with
  | .listing who (f :: todo) levels =>
      match d.table? f.fileNum with
      | some h => .ok { d with mu := .listing who todo (levels ++ [h]) }
      | none =>
          if ok then
            let r := d.openTable f.fileNum
            .ok { r.2 with
              tables := insertTable d.tables (f.fileNum, r.1)
              mu := .listing who todo (levels ++ [r.1]) }
          else d.installFailed who
  | _ => .error .disabled

/-- The files that left the version lose the reference of the cache. -/
def sweep (d : Db) : Except HandleFault Db :=
  match d.mu with
  | .listing who [] levels =>
      .ok { d with
        tables := d.tables.filter fun x => x.1 ∈ d.version.live
        dropping := d.dropping ++
          (d.tables.filter fun x => x.1 ∉ d.version.live).map Prod.snd
        mu := .taking (.install who) levels [] }
  | _ => .error .disabled

def ref (d : Db) : Except HandleFault Db :=
  match d.mu with
  | .taking who (h :: todo) taken =>
      .ok { d with handles := d.handles.ref h, mu := .taking who todo (taken ++ [h]) }
  | _ => .error .disabled

def swap (d : Db) (taken : List Nat) : Except HandleFault Db :=
  let next := { d with
    states := d.states ++ [{ val := taken }]
    rs := some d.states.length
    mu := .free }
  d.rs.elim (.ok next) next.release

def taken (d : Db) : Except HandleFault Db :=
  match d.mu with
  | .taking (.scheduling c) [] taken =>
      .ok { d with mu := .free, compacting := some { c := c, inputs := taken } }
  | .taking (.install .flusher) [] taken => do
      let d <- d.swap taken
      .ok { d with flushers := d.flushers ++ [.pruning] }
  | .taking .sealing [] taken => do
      let d <- d.swap taken
      .ok { d with flushers := d.flushers ++ [.starting] }
  | .taking (.install _) [] taken => d.swap taken
  | _ => .error .disabled

/-!
## Readers, writers and `Close`
-/

def opened (d : Db) (ok : Bool) : Except HandleFault Db :=
  match d.mu, d.life with
  | .free, .opening => if ok then .ok { d with life := .running } else d.releaseFiles
  | _, _ => .error .disabled

def acquire (d : Db) : Except HandleFault Db :=
  match d.mu, d.life, d.rs with
  | .free, .closed, _ => .ok d
  | .free, _, some s =>
      .ok { d with states := d.states.ref s, readers := d.readers ++ [s] }
  | _, _, _ => .error .disabled

def releaseReader (d : Db) (j : Nat) : Except HandleFault Db :=
  match d.readers[j]? with
  | some s => { d with readers := d.readers.eraseIdx j }.release s
  | none => .error .disabled

/-- A write or a checkpoint starts; none does while `Close` runs or after it, which
must not race other calls. -/
def call (d : Db) : Except HandleFault Db :=
  if d.life = .running then .ok { d with calls := d.calls + 1 } else .error .disabled

def sealLocked (d : Db) (rotated : Bool) : Except HandleFault Db :=
  match d.mu, d.rs with
  | .free, some s =>
      if 0 < d.calls ∨ d.life = .closing then
        if rotated then .ok { d with mu := .taking .sealing (d.levels s) [] }
        else .ok { d with bgErr := true }
      else .error .disabled
  | _, _ => .error .disabled

def close (d : Db) : Except HandleFault Db :=
  match d.mu with
  | .free =>
      if d.life = .running ∧ d.calls = 0 then .ok { d with life := .closing }
      else .error .disabled
  | _ => .error .disabled

def closed (d : Db) : Except HandleFault Db :=
  match d.mu, d.flushers, d.compacting with
  | .free, [], none =>
      if d.life = .closing then d.releaseFiles else .error .disabled
  | _, _, _ => .error .disabled

/-!
## Flushes and compactions
-/

/-- `VersionSet.Apply`: an error, or the edit is logged, maybe with a rotation of the
manifest after it. -/
def apply (d : Db) (e : VersionEdit) (logged : Option Bool) : Option Db :=
  match logged, applyEdit d.version e with
  | some rotated, .ok v =>
      some { d with
        version := v
        nextFileNum := if rotated then d.nextFileNum + 1 else d.nextFileNum }
  | _, _ => none

end Db

inductive FlushStep where
  | start
  | openTable (props : Option Props)
  | apply (logged : Option Bool)
  | finish (err : Bool)

inductive CompactStep where
  | create
  | closeOutput (props : Props)
  | bail
  | merged
  | openTable (ok : Bool)
  | apply (logged : Option Bool)
  | finish (err : Bool)

namespace Db

/-- `flushImm`.  The goroutine is out of the list while it installs. -/
def flushImm (d : Db) (j : Nat) (step : FlushStep) : Except HandleFault Db :=
  match d.flushers[j]?, step, d.mu with
  | some .starting, .start, .free =>
      .ok { d with
        nextFileNum := d.nextFileNum + 1
        flushers := d.flushers.set j (.writing d.nextFileNum) }
  | some (.writing _), .openTable none, _ => .ok { d with flushers := d.flushers.set j .failing }
  | some (.writing num), .openTable (some props), _ =>
      let r := d.openTable num
      let file : FileMeta := {
        level := 0
        fileNum := num
        size := props.fileSize
        smallest := props.smallest
        largest := props.largest }
      .ok { r.2 with flushers := d.flushers.set j (.opened file r.1) }
  | some (.opened file h), .apply logged, .free =>
      match d.apply { addFiles := [file] } logged with
      | none =>
          .ok { d with flushers := d.flushers.set j .failing, dropping := d.dropping ++ [h] }
      | some d' =>
          .ok { d' with
            tables := insertTable d.tables (file.fileNum, h)
            flushers := d.flushers.eraseIdx j
            mu := .listing .flusher d'.version.all [] }
  | some .failing, .finish _, .free =>
      .ok { d with flushers := d.flushers.eraseIdx j, bgErr := true }
  | some .pruning, .finish err, .free =>
      .ok { d with flushers := d.flushers.eraseIdx j, bgErr := d.bgErr || err }
  | _, _, _ => .error .disabled

/-- The handles of the inputs of a compaction; the first that is missing poisons the
engine. -/
def inputHandles (d : Db) (c : Compaction) : Option (List Nat) :=
  c.inputs.mapM fun f => d.table? f.fileNum

def maybeScheduleCompaction (d : Db) : Except HandleFault Db :=
  match d.mu, d.life, d.compacting with
  | .free, .running, none =>
      if d.bgErr then .ok d
      else
        match pickCompaction d.opts d.version d.compactPtr with
        | none => .ok d
        | some (c, compactPtr) =>
            match d.inputHandles c with
            | none => .ok { d with compactPtr := compactPtr, bgErr := true }
            | some hs =>
                .ok { d with compactPtr := compactPtr, mu := .taking (.scheduling c) hs [] }
  | _, _, _ => .error .disabled

def compactEdit (c : Compaction) (outputs : List FileMeta) : VersionEdit where
  addFiles := outputs
  deleteFiles := c.inputs.map fun f => { level := f.level, fileNum := f.fileNum }

def toStage (d : Db) (r : Running) (stage : Stage) : Db :=
  { d with compacting := some { r with stage := stage } }

def compact (d : Db) (step : CompactStep) : Except HandleFault Db :=
  match d.compacting with
  | none => .error .disabled
  | some r =>
      match r.stage, step, d.mu with
      | .merging outputs none, .create, .free =>
          .ok ({ d with nextFileNum := d.nextFileNum + 1 }.toStage r
            (.merging outputs (some d.nextFileNum)))
      | .merging outputs (some num), .closeOutput props, _ =>
          let file : FileMeta := {
            level := r.c.output
            fileNum := num
            size := props.fileSize
            smallest := props.smallest
            largest := props.largest }
          .ok (d.toStage r (.merging (outputs ++ [file]) none))
      | .merging _ _, .bail, _ => .ok (d.toStage r (.finishing true))
      | .merging outputs none, .merged, _ => .ok (d.toStage r (.opening outputs outputs []))
      | .opening outputs (f :: todo) newHandles, .openTable true, _ =>
          let t := d.openTable f.fileNum
          .ok (t.2.toStage r (.opening outputs todo (newHandles ++ [(f.fileNum, t.1)])))
      | .opening _ (_ :: _) newHandles, .openTable false, _ =>
          .ok ({ d with dropping := d.dropping ++ newHandles.map Prod.snd }.toStage r
            (.finishing true))
      | .opening outputs [] newHandles, .apply logged, .free =>
          match d.apply (compactEdit r.c outputs) logged with
          | none =>
              .ok ({ d with dropping := d.dropping ++ newHandles.map Prod.snd }.toStage r
                (.finishing true))
          | some d' =>
              .ok ({ d' with
                tables := newHandles.foldl insertTable d.tables
                mu := .listing .compactor d'.version.all [] }.toStage r (.finishing false))
      | .finishing failed, .finish err, .free =>
          .ok { d with
            compacting := none
            dropping := d.dropping ++ r.inputs
            bgErr := d.bgErr || failed || err }
      | _, _, _ => .error .disabled

end Db

/-!
## The machine
-/

inductive HandleAction where
  | list (ok : Bool)
  | sweep
  | ref
  | taken
  | opened (ok : Bool)
  | acquire
  | release (j : Nat)
  | drop (j : Nat)
  | call
  | ret
  | writeFailed
  | sealLocked (rotated : Bool)
  | flushImm (j : Nat) (step : FlushStep)
  | schedule
  | compact (step : CompactStep)
  | close
  | closed

def Db.exec (d : Db) : HandleAction -> Except HandleFault Db
  | .list ok => d.list ok
  | .sweep => d.sweep
  | .ref => d.ref
  | .taken => d.taken
  | .opened ok => d.opened ok
  | .acquire => d.acquire
  | .release j => d.releaseReader j
  | .drop j => d.drop j
  | .call => d.call
  | .ret => .ok { d with calls := d.calls - 1 }
  | .writeFailed => .ok { d with bgErr := true }
  | .sealLocked rotated => d.sealLocked rotated
  | .flushImm j step => d.flushImm j step
  | .schedule => d.maybeScheduleCompaction
  | .compact step => d.compact step
  | .close => d.close
  | .closed => d.closed

structure Opened where
  version : Version
  nextFileNum : Nat
  wellFormed : version.WellFormed
  numbered : forall n, n ∈ version.live -> n < nextFileNum

def Db.start (opts : Options) (o : Opened) : Db where
  opts := opts.defaults
  version := o.version
  nextFileNum := o.nextFileNum
  mu := .listing .opener o.version.all []

end Engine
end Basalt
