import Basalt.Engine.Command
import Basalt.Lib.KeyRange
import Basalt.Raft.Log

/-!
# The replicated state machine

Committed raft entries are applied to the engine one batch each.  The batch
carries the entry's writes, the session of its client and the applied index,
so that a restart finds them consistent in a reserved range of keys.

The engine is a map here, and a batch is applied to it as a whole.
-/

namespace Basalt
namespace Engine

open Lib Wal Raft Std

abbrev Store := ExtTreeMap Bytes Bytes

/-- `"\x00!raft/"`. -/
def reservedPrefix : Bytes := [0x00, 0x21, 0x72, 0x61, 0x66, 0x74, 0x2f]

def appliedKey : Bytes := reservedPrefix ++ [0x61, 0x70, 0x70, 0x6c, 0x69, 0x65, 0x64]

def sessionPrefix : Bytes :=
  reservedPrefix ++ [0x73, 0x65, 0x73, 0x73, 0x69, 0x6f, 0x6e, 0x2f]

def sessionKey (client : UInt64) : Bytes :=
  sessionPrefix ++ putBE 8 client.toNat

/-- The key is in the range of the engine's own records. -/
def Reserved (key : Bytes) : Prop :=
  reservedPrefix <+: key

instance (key : Bytes) : Decidable (Reserved key) :=
  inferInstanceAs (Decidable (reservedPrefix <+: key))

namespace Store

def applyOp (db : Store) : Op -> Store
  | .put userKey value => db.insert userKey value
  | .delete userKey => db.erase userKey

/-- `write` with reserved keys allowed. -/
def applyRaft (db : Store) (ops : List Op) : Store :=
  ops.foldl applyOp db

end Store

structure StateMachine where
  db : Store := ∅
  applied : Nat := 0
  term : Nat := 0
  sessions : ExtTreeMap UInt64 UInt64 := ∅

structure Applied where
  clientID : UInt64
  seq : UInt64
  index : Nat
deriving DecidableEq, Repr

inductive MachineError where
  | corruptApplied (length : Nat)
  | corruptSession (key : Bytes)
  | applyGap (index applied : Nat)
  | badEntry (index : Nat) (err : CommandError)
deriving DecidableEq, Repr

def MachineError.message : MachineError -> String
  | corruptApplied length => s!"basalt: corrupt applied record ({length} bytes)"
  | corruptSession key => s!"basalt: corrupt session record {key}"
  | applyGap index applied => s!"basalt: apply gap: entry {index} after applied {applied}"
  | badEntry index err => s!"basalt: entry {index}: {err.message}"

/-!
## Recovery
-/

def appliedRecord (index term : Nat) : Bytes :=
  putLE 8 index ++ putLE 8 term

def readApplied (db : Store) : Except MachineError (Nat × Nat) :=
  match db[appliedKey]? with
  | none => .ok (0, 0)
  | some v =>
      if v.length ≠ 16 then .error (.corruptApplied v.length)
      else .ok (getLE (v.take 8), getLE (v.drop 8))

def readSession (sessions : ExtTreeMap UInt64 UInt64) (x : Bytes × Bytes) :
    Except MachineError (ExtTreeMap UInt64 UInt64) :=
  if x.1.length ≠ sessionPrefix.length + 8 ∨ x.2.length ≠ 8 then
    .error (.corruptSession x.1)
  else
    .ok (sessions.insert (UInt64.ofNat (getBE (x.1.drop sessionPrefix.length)))
      (UInt64.ofNat (getLE x.2)))

def newStateMachine (db : Store) : Except MachineError StateMachine := do
  let applied <- readApplied db
  let sessions <- (scan db sessionPrefix (sessionPrefix ++ [0xff])).foldlM readSession ∅
  pure { db := db, applied := applied.1, term := applied.2, sessions := sessions }

/-!
## Application
-/

def entryCommand (e : Entry) : Except MachineError (Option Command) :=
  if e.data ≠ [] ∧ e.type ≠ .confChange then do
    let c <- (decodeCommand e.data).mapError (.badEntry e.index)
    pure (some c)
  else pure none

def NoDedup (client : UInt64) : Prop :=
  client &&& noDedupClient ≠ 0

instance (client : UInt64) : Decidable (NoDedup client) :=
  inferInstanceAs (Decidable (_ ≠ _))

namespace StateMachine

def session (sm : StateMachine) (client : UInt64) : UInt64 :=
  sm.sessions.getD client 0

/-- The writes of a command with the session they are recorded under; those of
a duplicate are skipped. -/
def effect (sm : StateMachine) (cmd : Option Command) :
    List Op × Option (UInt64 × UInt64) :=
  match cmd with
  | none => ([], none)
  | some c =>
      if NoDedup c.clientID then (c.batch.ops, none)
      else if sm.session c.clientID < c.seq then
        (c.batch.ops ++ [.put (sessionKey c.clientID) (putLE 8 c.seq.toNat)],
          some (c.clientID, c.seq))
      else ([], none)

def setSession (sessions : ExtTreeMap UInt64 UInt64) :
    Option (UInt64 × UInt64) -> ExtTreeMap UInt64 UInt64
  | none => sessions
  | some x => sessions.insert x.1 x.2

def commit (sm : StateMachine) (e : Entry) (cmd : Option Command) : StateMachine where
  db := Store.applyRaft sm.db
    ((sm.effect cmd).1 ++ [.put appliedKey (appliedRecord e.index e.term)])
  applied := e.index
  term := e.term
  sessions := setSession sm.sessions (sm.effect cmd).2

def applyEntry (sm : StateMachine) (e : Entry) :
    Except MachineError (StateMachine × Option Applied) :=
  if e.index ≠ sm.applied + 1 then .error (.applyGap e.index sm.applied)
  else do
    let cmd <- entryCommand e
    pure
      (sm.commit e cmd,
        cmd.map fun c => { clientID := c.clientID, seq := c.seq, index := e.index })

/-- An entry that fails leaves the entries before it applied. -/
def apply (sm : StateMachine) : List Entry -> StateMachine × Except MachineError (List Applied)
  | [] => (sm, .ok [])
  | e :: entries =>
      match sm.applyEntry e with
      | .error err => (sm, .error err)
      | .ok x =>
          let rest := x.1.apply entries
          (rest.1, rest.2.map fun out => x.2.toList ++ out)

end StateMachine

end Engine
end Basalt
