import Basalt.Lib.Run
import Basalt.Manifest.VersionSet

/-!
# What the manifest is to recover

The specification is the fold of the acknowledged edits, with the one edit that
a crash may have left unacknowledged.  A process makes calls on a version set,
and may stop in the middle of any of them.
-/

namespace Basalt
namespace Manifest

open Lib Base
open scoped Evaluate

/-!
## The specification
-/

structure State where
  version : Version := {}
  logNumber : Nat := 0
  lastSeq : Nat := 0

def State.apply (s : State) (e : VersionEdit) : Except VersionError State := do
  let v <- applyEdit s.version e
  .ok { version := v
        logNumber := e.logNumber.getD s.logNumber
        lastSeq := e.lastSeq.getD s.lastSeq }

/-- The fold of the acknowledged edits, and the last edit that was not
acknowledged. -/
structure Ledger where
  state : State := {}
  last : Option VersionEdit := none

/-- What may be recovered: the last edit is taken wholly or not at all. -/
def Ledger.Possible (j : Ledger) (s : State) : Prop :=
  s = j.state ∨ exists e, j.last = some e ∧ j.state.apply e = .ok s

inductive Call where
  | openSet (opts : Options)
  | apply (e : VersionEdit)
  | allocFileNum
  | deleteObsolete (protect : List Nat)
  | writeTable (num : Nat)

/-- A call that returns, or a crash after some steps of a call, where at least
`keep` bytes of each manifest survive, and what is synced. -/
inductive Action where
  | call (c : Call)
  | crash (c : Call) (steps : Nat) (keep : Nat -> Nat)

/-- What is known of the edits when a call is cut short. -/
def Ledger.crashed (j : Ledger) : Call -> Ledger
  | .apply e => { j with last := some e }
  | _ => j

inductive Ledger.Step : Ledger -> Action -> Ledger -> Prop where
  | opened {j : Ledger} {s : State} {opts : Options} :
      j.Possible s -> Step j (.call (.openSet opts)) { state := s }
  | applied {j : Ledger} {s : State} {e : VersionEdit} :
      j.state.apply e = .ok s -> Step j (.call (.apply e)) { state := s }
  | allocated {j : Ledger} : Step j (.call .allocFileNum) j
  | collected {j : Ledger} {protect : List Nat} :
      Step j (.call (.deleteObsolete protect)) j
  | written {j : Ledger} {num : Nat} : Step j (.call (.writeTable num)) j
  | crash {j : Ledger} {c : Call} {steps : Nat} {keep : Nat -> Nat} :
      Step j (.crash c steps keep) (j.crashed c)

/-!
## The process
-/

structure Process where
  disk : Disk := {}
  set : Option VersionSet := none
  calls : Nat := 0

def writeTable (num : Nat) : Proc Disk Unit :=
  Proc.step fun d => { d with tables := d.tables ++ [num] }

def applied (r : VersionSet × Except SetError Unit) : Option VersionSet :=
  match r.2 with
  | .ok _ => some r.1
  | .error e => if e.IsPanic then none else some r.1

def VersionSet.program (vs : VersionSet) : Call -> Proc Disk (Option VersionSet)
  | .openSet opts => do
      let r <- openSet opts
      pure r.toOption
  | .apply e => do
      let r <- vs.apply e
      pure (applied r)
  | .allocFileNum => pure (some vs.allocFileNum.2)
  | .deleteObsolete protect => do
      let _ <- vs.deleteObsolete protect
      pure (some vs)
  | .writeTable num => do
      writeTable num
      pure (some vs)

def program (set : Option VersionSet) (c : Call) : Proc Disk (Option VersionSet) :=
  match c, set with
  | .openSet opts, _ => do
      let r <- openSet opts
      pure r.toOption
  | _, none => pure none
  | c, some vs => vs.program c

/-- Every manifest may lose bytes at its end, but none that are synced. -/
def Disk.cut (d : Disk) (keep : Nat -> Nat) : Disk :=
  { d with manifests := d.manifests.map fun m =>
      { m with bytes := m.bytes.take (max (keep m.num) m.synced) } }

def Process.exec (p : Process) : Action -> Process
  | .call c =>
      { disk := (program p.set c p.disk).final
        set := (program p.set c p.disk).result
        calls := p.calls + 1 }
  | .crash c steps keep =>
      { disk := ((program p.set c).stopped steps p.disk).cut keep
        calls := p.calls + 1 }

/-!
## What the callers promise
-/

/-- The edit is one that the set accepts, and its tables are durable. -/
@[mk_iff]
structure VersionSet.Accepts (vs : VersionSet) (d : Disk) (e : VersionEdit) : Prop where
  inRange : e.InRange
  check : exists v, vs.check e = .ok v
  durable : forall f, f ∈ e.addFiles -> f.fileNum ∈ d.tables

instance (vs : VersionSet) (d : Disk) (e : VersionEdit) : Decidable (vs.Accepts d e) :=
  decidable_of_iff' _ (vs.accepts_iff d e)

def Process.Promised (p : Process) : Call -> Prop
  | .openSet _ => True
  | .apply e => exists vs, p.set = some vs ∧ vs.Accepts p.disk e
  | .allocFileNum => True
  | .deleteObsolete _ => True
  | .writeTable num => exists vs, p.set = some vs ∧ num < vs.nextFileNum

instance (p : Process) : DecidablePred p.Promised := fun c =>
  match c with
  | .openSet _ | .allocFileNum | .deleteObsolete _ => inferInstanceAs (Decidable True)
  | .apply e => inferInstanceAs (Decidable (exists vs, p.set = some vs ∧ vs.Accepts p.disk e))
  | .writeTable num =>
      inferInstanceAs (Decidable (exists vs, p.set = some vs ∧ num < vs.nextFileNum))

def Action.made : Action -> Call
  | .call c => c
  | .crash c _ _ => c

/-- The snapshot of a version, with room for the counters, is short enough for
the length field of a record. -/
def Version.Fits (v : Version) : Prop :=
  (snapshot v).encode.length + 33 ≤ Wal.maxPayload

instance (v : Version) : Decidable v.Fits :=
  inferInstanceAs (Decidable (_ ≤ _))

def VersionSet.RecordsFit (vs : VersionSet) (e : VersionEdit) : Prop :=
  (vs.stamp e).encode.length ≤ Wal.maxPayload ∧
    forall v, applyEdit vs.cur e = .ok v -> v.Fits

instance (vs : VersionSet) (e : VersionEdit) : Decidable (vs.RecordsFit e) :=
  inferInstanceAs (Decidable (_ ∧ _))

/-- Records fit their length field, and the counter for file numbers has not
run through its 64 bits. -/
def Process.WithinLimits (p : Process) : Call -> Prop
  | .apply e => p.calls + 3 < rangeLE 8 ∧ forall vs, p.set = some vs -> vs.RecordsFit e
  | _ => p.calls + 3 < rangeLE 8

instance (p : Process) : DecidablePred p.WithinLimits := fun c =>
  match c with
  | .apply _ => inferInstanceAs (Decidable (_ ∧ _))
  | .openSet _ | .allocFileNum | .deleteObsolete _ | .writeTable _ =>
      inferInstanceAs (Decidable (_ < _))

/-!
## The property
-/

def Disk.nums (d : Disk) : List Nat :=
  d.tables ++ d.manifestNums

/-- The set is a state of the specification, its file numbers to come are new, and
no live table was removed. -/
structure VersionSet.Sound (vs : VersionSet) (d : Disk) (s : State) : Prop where
  version : vs.cur = s.version
  logNumber : vs.logNumber = s.logNumber
  lastSeq : vs.lastSeq = s.lastSeq
  next : forall k, k ∈ d.nums -> k < vs.allocFileNum.1
  live : forall k, k ∈ vs.cur.live -> k ∈ d.tables

/-- Opening succeeds and recovers the acknowledged edits, with or without the
last one; an open set has exactly the acknowledged ones. -/
structure Process.Recovers (p : Process) (j : Ledger) : Prop where
  reopen : forall opts, exists vs s, j.Possible s ∧
    (openSet opts p.disk).result = .ok vs ∧ vs.Sound (openSet opts p.disk).final s
  running : forall vs, p.set = some vs -> vs.Sound p.disk j.state

end Manifest
end Basalt
