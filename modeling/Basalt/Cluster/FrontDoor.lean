import Basalt.Engine.Replay
import Basalt.Shard.Map

/-!
# The front doors

Clients reach a group through `kvServer` or, on a sharded cluster, through
`shardKV`.  Both check the request and propose its write as a command of a
client without session.
-/

namespace Basalt
namespace Cluster

open Lib Wal Raft Engine Shard

inductive Status where
  | emptyKey
  | slotMigrating
  | unassigned
  | ownershipDisagreement (routed localGID : Nat)
  | noLeader (gid : Nat)
deriving DecidableEq, Repr

def Status.message : Status -> String
  | emptyKey => "key must not be empty"
  | slotMigrating => "slot-migrating: handoff in progress, retry"
  | unassigned => "shard: key maps to an unassigned slot"
  | ownershipDisagreement routed localGID =>
      s!"shard: ownership disagreement (forwarded to group {routed}, local map says {localGID})"
  | noLeader gid => s!"shard: no leader for group {gid}"

def validKey (key : Bytes) : Except Status Unit :=
  if key.length = 0 then .error .emptyKey else .ok ()

/-- What `kvServer` and `shardKV` keep: the id of their node and the number of
their last proposal. -/
structure Proposer where
  id : UInt64
  seq : UInt64 := 0
deriving DecidableEq, Repr

namespace Proposer

def client (p : Proposer) : UInt64 :=
  noDedupClient ||| p.id

def next (p : Proposer) : Proposer :=
  { p with seq := p.seq + 1 }

def command (p : Proposer) (op : Op) : Command where
  clientID := p.client
  seq := p.next.seq
  batch := { ops := [op] }

end Proposer

namespace KvServer

def write (p : Proposer) (op : Op) : Except Status Command := do
  validKey op.userKey
  pure (p.command op)

def put (p : Proposer) (key value : Bytes) : Except Status Command :=
  write p (.put key value)

def delete (p : Proposer) (key : Bytes) : Except Status Command :=
  write p (.delete key)

end KvServer

namespace ShardKV

/-- What `shardKV` finds when it serves a request. -/
structure Context where
  map : ShardMap
  /-- The group in the header of a forwarded request. -/
  routed : Option Nat
  /-- This node leads the group. -/
  leads : Nat -> Bool
  /-- A client for the leader of the group is at hand. -/
  forwardTarget : Nat -> Bool
  /-- The map at the time of the guard on the group's loop. -/
  guardMap : ShardMap

inductive Reply where
  | forward (gid : Nat)
  | propose (gid : Nat) (c : Command)

def fenceRoute (routed : Option Nat) (localGID : Nat) : Except Status Unit :=
  match routed with
  | none => .ok ()
  | some gid =>
      if gid ≠ localGID then .error (.ownershipDisagreement gid localGID) else .ok ()

def route (x : Context) (key : Bytes) : Except Status Nat :=
  if x.map.isKeyMigrating key then .error .slotMigrating
  else if x.map.lookup key = 0 then .error .unassigned
  else do
    fenceRoute x.routed (x.map.lookup key)
    pure (x.map.lookup key)

def freezeGuard (x : Context) (key : Bytes) : Except Status Unit :=
  if x.guardMap.isKeyMigrating key then .error .slotMigrating else .ok ()

def write (p : Proposer) (x : Context) (op : Op) : Except Status Reply := do
  validKey op.userKey
  let gid <- route x op.userKey
  if x.leads gid then do
    freezeGuard x op.userKey
    pure (.propose gid (p.command op))
  else if x.forwardTarget gid then pure (.forward gid)
  else .error (.noLeader gid)

def put (p : Proposer) (x : Context) (key value : Bytes) : Except Status Reply :=
  write p x (.put key value)

def delete (p : Proposer) (x : Context) (key : Bytes) : Except Status Reply :=
  write p x (.delete key)

end ShardKV

/-- The commands that reach a group's log: writes of the front doors, and the
commands of clients with sessions. -/
inductive Submitted : Command -> Prop where
  | kvPut {p : Proposer} {key value : Bytes} {c : Command} :
      KvServer.put p key value = .ok c -> Submitted c
  | kvDelete {p : Proposer} {key : Bytes} {c : Command} :
      KvServer.delete p key = .ok c -> Submitted c
  | shardPut {p : Proposer} {x : ShardKV.Context} {key value : Bytes} {gid : Nat}
      {c : Command} :
      ShardKV.put p x key value = .ok (.propose gid c) -> Submitted c
  | shardDelete {p : Proposer} {x : ShardKV.Context} {key : Bytes} {gid : Nat} {c : Command} :
      ShardKV.delete p x key = .ok (.propose gid c) -> Submitted c
  | session {c : Command} : ¬ NoDedup c.clientID -> 0 < c.seq -> Submitted c

theorem Proposer.noDedup (p : Proposer) (op : Op) : NoDedup (p.command op).clientID := by
  intro hzero
  have hbit := congrArg (fun x : UInt64 => x.toNat.testBit 63) hzero
  have hone : noDedupClient.toNat.testBit 63 = true := by decide
  change ((noDedupClient ||| p.id) &&& noDedupClient).toNat.testBit 63 = false at hbit
  rw [UInt64.toNat_and, UInt64.toNat_or, Nat.testBit_and, Nat.testBit_or, hone] at hbit
  cases hbit

theorem Submitted.seq_pos {c : Command} (h : Submitted c) (hdedup : ¬ NoDedup c.clientID) :
    0 < c.seq := by
  have hkv : forall p op, KvServer.write p op = .ok c -> c = p.command op := by
    intro p op hok
    rcases bind_eq_ok.mp hok with ⟨_, _, hpure⟩
    cases hpure
    rfl
  have hshard : forall p x op gid, ShardKV.write p x op = .ok (.propose gid c) ->
      c = p.command op := by
    intro p x op gid hok
    rcases bind_eq_ok.mp hok with ⟨_, _, hok⟩
    rcases bind_eq_ok.mp hok with ⟨gid', _, hok⟩
    split at hok
    · rcases bind_eq_ok.mp hok with ⟨_, _, hpure⟩
      cases hpure
      rfl
    · split at hok
      · cases hok
      · cases hok
  have hdoor : forall (p : Proposer) op, c = p.command op -> 0 < c.seq := by
    rintro p op rfl
    exact absurd (p.noDedup op) hdedup
  cases h with
  | kvPut hok | kvDelete hok => exact hdoor _ _ (hkv _ _ hok)
  | shardPut hok | shardDelete hok => exact hdoor _ _ (hshard _ _ _ _ hok)
  | session _ hseq => exact hseq

/-!
## The log of a group
-/

def Logged (e : Entry) : Prop :=
  (e.index < rangeLE 8 ∧ e.term < rangeLE 8) ∧
    (e.data = [] ∨ e.type = .confChange ∨
      exists c, Submitted c ∧ c.batch.InRange ∧ e.data = encodeCommand c)

/-- The command of the entry writes no reserved key. -/
def KeepsOut (e : Entry) : Prop :=
  forall c, commandOf e = some c -> Unreserved c.batch.ops

instance (e : Entry) : Decidable (KeepsOut e) :=
  inferInstanceAs (Decidable (forall c, c ∈ commandOf e -> Unreserved c.batch.ops))

theorem Logged.replayable {e : Entry} (h : Logged e) (hkeys : KeepsOut e) : Replayable e := by
  refine ⟨h.left, ?_⟩
  rcases h.right with hdata | htype | ⟨c, hc, hrange, hdata⟩
  · rw [entryCommand, if_neg fun hboth => hboth.left hdata]
    exact True.intro
  · rw [entryCommand, if_neg fun hboth => hboth.right htype]
    exact True.intro
  · by_cases htype : e.type = .confChange
    · rw [entryCommand, if_neg fun hboth => hboth.right htype]
      exact True.intro
    · have hne : e.data ≠ [] ∧ e.type ≠ .confChange :=
        ⟨hdata ▸ encodeCommand_ne_nil c, htype⟩
      have hcmd : entryCommand e = .ok (some c) := by
        rw [entryCommand, if_pos hne, hdata, decodeCommand_encodeCommand hrange]
        rfl
      have hof : commandOf e = some c := by
        rw [commandOf, hcmd]
      rw [hcmd]
      exact ⟨hkeys c hof, hc.seq_pos⟩

/-!
## What the reserved range depends on
-/

/-- An entry without its operations. -/
structure Stamp where
  index : Nat
  term : Nat
  /-- Client id and sequence number of a command. -/
  command : Option (UInt64 × UInt64)

def stamp (e : Entry) : Stamp where
  index := e.index
  term := e.term
  command := (commandOf e).map fun c => (c.clientID, c.seq)

def Stamp.bare (s : Stamp) : Entry where
  index := s.index
  term := s.term
  data :=
    match s.command with
    | none => []
    | some x => encodeCommand { clientID := x.1, seq := x.2, batch := {} }

def recordsAfter (stamps : List Stamp) : Store :=
  (({} : StateMachine).apply (stamps.map Stamp.bare)).1.db

theorem entryCommand_bare (e : Entry) :
    entryCommand (stamp e).bare = .ok ((commandOf e).map fun c => { c with batch := {} }) := by
  have hrange : ({} : Batch).InRange := ⟨by decide, by decide, fun _ h => by cases h⟩
  cases hc : commandOf e with
  | none =>
      have hdata : (stamp e).bare.data = [] := by rw [Stamp.bare, stamp, hc]; rfl
      rw [entryCommand, if_neg fun hboth => hboth.left hdata]
      rfl
  | some c =>
      have hdata : (stamp e).bare.data =
          encodeCommand { clientID := c.clientID, seq := c.seq, batch := {} } := by
        rw [Stamp.bare, stamp, hc]
        rfl
      have hne : (stamp e).bare.data ≠ [] ∧ (stamp e).bare.type ≠ .confChange :=
        ⟨hdata ▸ encodeCommand_ne_nil _, fun h => by cases h⟩
      rw [entryCommand, if_pos hne, hdata, decodeCommand_encodeCommand hrange]
      rfl

theorem commandOf_bare (e : Entry) :
    commandOf (stamp e).bare = (commandOf e).map fun c => { c with batch := {} } := by
  rw [commandOf, entryCommand_bare]

theorem replayable_bare {e : Entry} (h : Replayable e) : Replayable (stamp e).bare := by
  refine ⟨h.left, ?_⟩
  rw [entryCommand_bare]
  cases hc : commandOf e with
  | none => exact True.intro
  | some c => exact ⟨fun op hop => (List.not_mem_nil hop).elim, (h.commandOf hc).right⟩

theorem sessions_commit {sm sm' : StateMachine} (h : sm.sessions = sm'.sessions)
    (e e' : Entry) (cmd : Option Command) :
    (sm.commit e cmd).sessions =
      (sm'.commit e' (cmd.map fun c => { c with batch := {} })).sessions := by
  cases cmd with
  | none => exact h
  | some c =>
      have hsession : sm.session c.clientID = sm'.session c.clientID := by
        rw [StateMachine.session, StateMachine.session, h]
      rw [Option.map_some, SessionsOf.sessions_commit_some, SessionsOf.sessions_commit_some,
        hsession, h]

theorem books_after {sm sm' : StateMachine} (happlied : sm.applied = sm'.applied)
    (hterm : sm.term = sm'.term) (hsessions : sm.sessions = sm'.sessions)
    (log : List Entry) :
    (sm.after log).applied = (sm'.after (log.map fun e => (stamp e).bare)).applied ∧
      (sm.after log).term = (sm'.after (log.map fun e => (stamp e).bare)).term ∧
      (sm.after log).sessions = (sm'.after (log.map fun e => (stamp e).bare)).sessions := by
  induction log generalizing sm sm' with
  | nil => exact ⟨happlied, hterm, hsessions⟩
  | cons e log ih =>
      apply ih
      · rfl
      · rfl
      · change (sm.commit e (commandOf e)).sessions =
          (sm'.commit (stamp e).bare (commandOf (stamp e).bare)).sessions
        rw [commandOf_bare]
        exact sessions_commit hsessions e _ _

/-- If no command writes a reserved key, the reserved range depends on the
stamps of the entries only, and a restart recovers the machine. -/
theorem records_of_keepsOut {log : List Entry} (hnum : NumberedFrom 1 log)
    (hlog : forall e, e ∈ log -> Logged e) (hkeys : forall e, e ∈ log -> KeepsOut e) :
    exists sm out, ({} : StateMachine).apply log = (sm, .ok out) ∧
      (forall key, Reserved key ->
        sm.db[key]? = (recordsAfter (log.map stamp))[key]?) ∧
      newStateMachine sm.db = .ok sm ∧ sm.applied = log.length := by
  have hrep : forall e, e ∈ log -> Replayable e :=
    fun e he => (hlog e he).replayable (hkeys e he)
  have hnum' : NumberedFrom (({} : StateMachine).applied + 1) log := hnum
  have hbareNum : NumberedFrom (({} : StateMachine).applied + 1)
      (log.map fun e => (stamp e).bare) := by
    intro i e hi
    rw [List.getElem?_map] at hi
    rcases Option.map_eq_some_iff.mp hi with ⟨x, hx, rfl⟩
    exact hnum i x hx
  have hbareRep : forall e, e ∈ log.map (fun e => (stamp e).bare) -> Replayable e := by
    intro e he
    rcases List.mem_map.mp he with ⟨x, hx, rfl⟩
    exact replayable_bare (hrep x hx)
  rcases StateMachine.apply_eq_after hnum' hrep with ⟨out, hok⟩
  rcases StateMachine.apply_eq_after hbareNum hbareRep with ⟨_, hbare⟩
  have hkept := Kept.init.after hnum' hrep
  have hkept' := Kept.init.after hbareNum hbareRep
  rcases @books_after {} {} rfl rfl rfl log with ⟨happlied, hterm, hsessions⟩
  refine ⟨_, out, hok, ?_, newStateMachine_of_kept hkept, ?_⟩
  · intro key hkey
    rw [recordsAfter, List.map_map]
    change _ = (({} : StateMachine).apply (log.map fun e => (stamp e).bare)).1.db[key]?
    rw [hbare]
    exact hkept.unique hkept' happlied hterm hsessions hkey
  · rw [StateMachine.applied_after hnum']
    exact Nat.zero_add _

def leading : ShardKV.Context where
  map := { epoch := 1, slots := fun _ => 1, migrating := fun _ => false }
  routed := none
  leads := fun _ => true
  forwardTarget := fun _ => false
  guardMap := { epoch := 1, slots := fun _ => 1, migrating := fun _ => false }

def doorLog : List Entry :=
  [{ index := 1, term := 1 },
    { index := 2, term := 1
      data := encodeCommand (({ id := 1 } : Proposer).command (.put [0x6b] [1])) },
    { index := 3, term := 1
      data := encodeCommand (({ id := 2 } : Proposer).command (.delete [0x6b])) }]

theorem records_doorLog :
    exists sm out, ({} : StateMachine).apply doorLog = (sm, .ok out) ∧
      (forall key, Reserved key ->
        sm.db[key]? = (recordsAfter (doorLog.map stamp))[key]?) ∧
      newStateMachine sm.db = .ok sm ∧ sm.applied = 3 := by
  have hput : Logged
      { index := 2, term := 1
        data := encodeCommand (({ id := 1 } : Proposer).command (.put [0x6b] [1])) } := by
    have hok : KvServer.put { id := 1 } [0x6b] [1] =
        .ok (({ id := 1 } : Proposer).command (.put [0x6b] [1])) := rfl
    refine ⟨by decide, Or.inr (Or.inr ⟨_, Submitted.kvPut hok, ?_, rfl⟩)⟩
    exact ⟨by decide, by decide, fun op hop => by
      rw [List.mem_singleton.mp hop]
      exact ⟨by decide, by decide⟩⟩
  have hdelete : Logged
      { index := 3, term := 1
        data := encodeCommand (({ id := 2 } : Proposer).command (.delete [0x6b])) } := by
    have hok : ShardKV.delete { id := 2 } leading [0x6b] =
        .ok (.propose 1 (({ id := 2 } : Proposer).command (.delete [0x6b]))) := rfl
    refine ⟨by decide, Or.inr (Or.inr ⟨_, Submitted.shardDelete hok, ?_, rfl⟩)⟩
    exact ⟨by decide, by decide, fun op hop => by
      rw [List.mem_singleton.mp hop]
      exact (by decide : (1 : Nat) < rangeLE 8)⟩
  apply records_of_keepsOut (by decide) _ (by decide +kernel)
  intro e he
  rcases List.mem_cons.mp he with rfl | he
  · exact ⟨by decide, Or.inl rfl⟩
  · rcases List.mem_cons.mp he with rfl | he
    · exact hput
    · rw [List.mem_singleton.mp he]
      exact hdelete

/-- A key in the range of the session records that is none of them. -/
def strayKey : Bytes := sessionPrefix ++ [0x78]

def strayEntry : Entry where
  index := 1
  term := 1
  data := encodeCommand (({ id := 1 } : Proposer).command (.put strayKey []))

/-- `kvServer` accepts a put of a reserved key; the next restart fails. -/
theorem not_recovered_strayKey :
    KvServer.put { id := 1 } strayKey [] =
        .ok (({ id := 1 } : Proposer).command (.put strayKey [])) ∧
      exists sm out, ({} : StateMachine).apply [strayEntry] = (sm, .ok out) ∧
        sm.db[strayKey]? ≠ (recordsAfter [stamp strayEntry])[strayKey]? ∧
        newStateMachine sm.db = .error (.corruptSession strayKey) := by
  have hrun : okWith (({} : StateMachine).apply [strayEntry]).2 (fun _ => true) := by
    decide +kernel
  have hstray : (({} : StateMachine).apply [strayEntry]).1.db[strayKey]? ≠
      (recordsAfter [stamp strayEntry])[strayKey]? := by
    decide +kernel
  have hfail : errorWith (newStateMachine (({} : StateMachine).apply [strayEntry]).1.db)
      (fun e => e = .corruptSession strayKey) := by
    decide +kernel
  rcases exists_of_okWith hrun with ⟨out, hout, _⟩
  rcases exists_of_errorWith hfail with ⟨e, he, hcheck⟩
  rw [of_decide_eq_true hcheck] at he
  exact ⟨rfl, _, out, Prod.ext rfl hout, hstray, he⟩

end Cluster
end Basalt
