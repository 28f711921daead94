import Basalt.Engine.Records
import Basalt.Raft.Restart

/-!
# A group and its files

A group keeps two stores that are durable on their own: the directory of an
engine without a log, which loses what is not flushed, and the state file of
its raft node.  The model takes one durable step at a time, so that a crash can
come between any two of them.
-/

namespace Basalt
namespace Cluster

open Lib Raft Engine

/-!
## Files
-/

/-- The contents of the engine directory, of the directory that a replaced
engine is parked in, and the state file with the length that is synced. -/
structure GroupDisk where
  db : Option Store := none
  replaced : Option Store := none
  state : Bytes := []
  synced : Nat := 0

structure GroupConfig where
  raft : Raft.Config
  snapshotEvery : Nat := 0
  member : raft.id ∈ raft.peers

/-- A received snapshot, of which the header was compared with the checkpoint:
the state of a machine that has applied something. -/
structure Checkpoint where
  leaderTerm : Nat
  machine : StateMachine
  kept : Kept machine
  pos : 0 < machine.applied

namespace Checkpoint

def index (x : Checkpoint) : Nat :=
  x.machine.applied

def term (x : Checkpoint) : Nat :=
  x.machine.term

end Checkpoint

/-!
## The running group
-/

/-- Where the loop of the group is, or an installation that has stopped it. -/
inductive Stage where
  | idle
  | saving (rd : Ready) (records : List Bytes)
  | applying (rd : Ready) (rest : List Entry)
  | checkpointing
  | compacting
  | closing (x : Checkpoint)
  | removeOld (x : Checkpoint)
  | moveAway (x : Checkpoint)
  | moveIn (x : Checkpoint)
  | cleanUp (x : Checkpoint)
  | rewriting (x : Checkpoint)
  | reopening

/-- `lastIndex` is the index that the open state file ends with, and `imm` the
contents of the engine when its sealed memtable was sealed. -/
structure Group where
  node : Node
  lastIndex : Nat
  sm : StateMachine
  imm : Option Store := none
  appliedI : Nat
  snapAt : Nat
  stage : Stage := .idle

inductive GroupError where
  | machine (e : MachineError)
  | storage (e : StorageError)
  | raft (p : Panic)
deriving DecidableEq

/-- The engine directory is created when it is missing. -/
def GroupDisk.opened (d : GroupDisk) : GroupDisk :=
  { d with db := some (d.db.getD ∅) }

def openGroup (cfg : GroupConfig) (d : GroupDisk) : Except GroupError Group := do
  let sm <- (newStateMachine (d.db.getD ∅)).mapError .machine
  let (st, rec) <- (openStorage d.state d.synced).mapError .storage
  let node <- (Node.restoreNode cfg.raft rec sm.applied).mapError .raft
  pure
    { node := node
      lastIndex := st.lastIndex
      sm := sm
      appliedI := sm.applied
      snapAt := sm.applied }

/-- The index that the state file ends with once the entries are saved. -/
def savedIndex (lastIndex : Nat) (ents : List Entry) : Nat :=
  (ents.getLast?.map Entry.index).getD lastIndex

namespace Group

/-- A snapshot is refused from a leader of an older term, and when it is not
ahead of the commit index. -/
def Refuses (g : Group) (x : Checkpoint) : Prop :=
  x.leaderTerm < g.node.hardState.term ∨ x.index ≤ g.node.hardState.commit

instance (g : Group) (x : Checkpoint) : Decidable (g.Refuses x) :=
  inferInstanceAs (Decidable (_ ∨ _))

/-- The hard state at the boundary of a snapshot; the vote is of the old term. -/
def boundary (g : Group) (x : Checkpoint) : HardState :=
  if g.node.hardState.term < x.leaderTerm then { term := x.leaderTerm, commit := x.index }
  else { g.node.hardState with commit := x.index }

def flushSealed (g : Group) (d : GroupDisk) (s : Store) : GroupDisk × Option Group :=
  ({ d with db := some s }, some { g with imm := none })

def ready (g : Group) (d : GroupDisk) : GroupDisk × Option Group :=
  if g.node.hasReady then
    match g.node.ready with
    | .error _ => (d, none)
    | .ok x =>
        (d, some { g with
          node := x.2, stage := .saving x.1 (readyPayloads g.lastIndex x.1) })
  else (d, some g)

/-- Writes the next record of a batch; when all are written, syncs. -/
def save (g : Group) (d : GroupDisk) (rd : Ready) :
    List Bytes -> GroupDisk × Option Group
  | [] =>
      ({ d with
          synced :=
            if rd.entries ≠ [] ∨ rd.hardState ≠ none then d.state.length else d.synced },
        some { g with
          lastIndex := savedIndex g.lastIndex rd.entries
          stage := .applying rd rd.committedEntries })
  | p :: ps =>
      match Wal.appendRecord d.state p with
      | .error _ => (d, none)
      | .ok file => ({ d with state := file }, some { g with stage := .saving rd ps })

/-- Applies the next committed entry; when all are applied, acknowledges the
batch and decides whether to snapshot. -/
def apply (cfg : GroupConfig) (g : Group) (d : GroupDisk) (rd : Ready) :
    List Entry -> GroupDisk × Option Group
  | [] =>
      match g.node.advance rd with
      | .error _ => (d, none)
      | .ok node =>
          let appliedI := savedIndex g.appliedI rd.committedEntries
          (d, some { g with
            node := node
            appliedI := appliedI
            stage :=
              if cfg.snapshotEvery = 0 ∨ appliedI < g.snapAt + cfg.snapshotEvery then .idle
              else .checkpointing })
  | e :: rest =>
      match g.sm.applyEntry e with
      | .error _ => (d, none)
      | .ok x => (d, some { g with sm := x.1, stage := .applying rd rest })

/-- Cuts the log at the applied index, and the image that replaces the state
file. -/
def compacted (g : Group) : Except Panic (Node × List Entry × Bytes) := do
  let node <- g.node.compactTo g.sm.applied
  let ents <- node.entries
  let buf <- (Storage.image node.hardState node.log.snapIndex node.log.snapTerm
    ents).mapError .wal
  pure (node, ents, buf)

def compact (g : Group) (d : GroupDisk) : GroupDisk × Option Group :=
  match g.compacted with
  | .error _ => (d, none)
  | .ok x =>
      ({ d with state := x.2.2, synced := x.2.2.length },
        some { g with
          node := x.1
          lastIndex := x.1.log.snapIndex + x.2.1.length
          snapAt := g.sm.applied
          stage := .idle })

def rewritten (g : Group) (d : GroupDisk) (x : Checkpoint) : Except GroupError Bytes := do
  let _ <- (openStorage d.state d.synced).mapError .storage
  (Storage.image (g.boundary x) x.index x.term []).mapError fun p => .raft (.wal p)

def rewrite (g : Group) (d : GroupDisk) (x : Checkpoint) : GroupDisk × Option Group :=
  match g.rewritten d x with
  | .error _ => (d, none)
  | .ok buf =>
      ({ d with state := buf, synced := buf.length }, some { g with stage := .reopening })

/-- The next durable step, or the next step in memory.  A panic leaves no
group. -/
def next (cfg : GroupConfig) (g : Group) (d : GroupDisk) : GroupDisk × Option Group :=
  match g.stage with
  | .idle => g.ready d
  | .saving rd records => g.save d rd records
  | .applying rd rest => g.apply cfg d rd rest
  | .checkpointing =>
      match g.imm with
      | some s => g.flushSealed d s
      | none => ({ d with db := some g.sm.db }, some { g with stage := .compacting })
  | .compacting => g.compact d
  | .closing x =>
      match g.imm with
      | some s => g.flushSealed d s
      | none =>
          ({ d with db := some g.sm.db, synced := d.state.length },
            some { g with stage := if g.Refuses x then .reopening else .removeOld x })
  | .removeOld x => ({ d with replaced := none }, some { g with stage := .moveAway x })
  | .moveAway x => ({ d with db := none, replaced := d.db }, some { g with stage := .moveIn x })
  | .moveIn x =>
      ({ d with db := some x.machine.db }, some { g with stage := .cleanUp x })
  | .cleanUp x => ({ d with replaced := none }, some { g with stage := .rewriting x })
  | .rewriting x => g.rewrite d x
  | .reopening => (d.opened, (openGroup cfg d.opened).toOption)

end Group

/-!
## The process
-/

structure GroupProcess where
  disk : GroupDisk := {}
  group : Option Group := none

inductive GroupAction where
  | openGroup
  | feed (ev : Replica.Event)
  | next
  | sealMemtable
  | flushSealed
  | install (x : Checkpoint)
  | crash (keep : Nat)

def Stage.Idle : Stage -> Prop
  | idle => True
  | _ => False

instance : DecidablePred Stage.Idle := fun s =>
  match s with
  | .idle => .isTrue trivial
  | .saving .. | .applying .. | .checkpointing | .compacting | .closing _ | .removeOld _
  | .moveAway _ | .moveIn _ | .cleanUp _ | .rewriting _ | .reopening => .isFalse not_false

theorem Stage.Idle.eq {s : Stage} (h : s.Idle) : s = .idle := by
  cases s with
  | idle => rfl
  | _ => exact h.elim

def Stage.Running : Stage -> Prop
  | idle | saving .. | applying .. | checkpointing | compacting => True
  | _ => False

instance : DecidablePred Stage.Running := fun s =>
  match s with
  | .idle | .saving .. | .applying .. | .checkpointing | .compacting => .isTrue trivial
  | .closing _ | .removeOld _ | .moveAway _ | .moveIn _ | .cleanUp _ | .rewriting _
  | .reopening => .isFalse not_false

/-- A crash may cut the state file behind what is synced. -/
def GroupDisk.cut (d : GroupDisk) (keep : Nat) : GroupDisk :=
  { d with
    state := d.state.take (max keep d.synced)
    synced := (d.state.take (max keep d.synced)).length }

/-- What an action does to a running group. -/
def Group.exec (cfg : GroupConfig) (g : Group) (d : GroupDisk) :
    GroupAction -> GroupDisk × Option Group
  | .openGroup => (d, some g)
  | .feed ev =>
      if g.stage.Idle then
        (d, (Replica.feed g.node ev).toOption.map fun node => { g with node := node })
      else (d, some g)
  | .next => g.next cfg d
  | .sealMemtable =>
      if g.stage.Running ∧ g.imm = none then (d, some { g with imm := some g.sm.db })
      else (d, some g)
  | .flushSealed =>
      match g.imm with
      | some s => if g.stage.Running then g.flushSealed d s else (d, some g)
      | none => (d, some g)
  | .install x =>
      if g.stage.Idle then (d, some { g with stage := .closing x }) else (d, some g)
  | .crash keep => (d.cut keep, none)

def GroupProcess.exec (cfg : GroupConfig) (p : GroupProcess) (a : GroupAction) :
    GroupProcess :=
  match p.group with
  | some g =>
      let r := g.exec cfg p.disk a
      { disk := r.1, group := r.2 }
  | none =>
      match a with
      | .openGroup =>
          { disk := p.disk.opened, group := (Cluster.openGroup cfg p.disk.opened).toOption }
      | .crash keep => { disk := p.disk.cut keep }
      | _ => p

end Cluster
end Basalt
