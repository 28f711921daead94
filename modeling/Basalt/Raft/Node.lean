import Mathlib.Data.Finset.Card
import Mathlib.Data.List.Dedup
import Mathlib.Data.List.Sort
import Basalt.Raft.Log

/-!
# The consensus node

The state machine of one member: callers feed it messages through `step` and
time through `tick`, and drain its effects through `ready` and `advance`.

The source's maps are modelled by what they are used for.  The tallies map
identifiers to `true` and are finite sets; the voters and learners are lists
of distinct identifiers, since the node sends to them in turn; `nextIndex` and
`matchIndex` are functions, with absent keys read as zero.
-/

namespace Basalt
namespace Raft

open Lib

/-- `rand` answers its `k`-th call for a number below `n` with `rand k n`. -/
structure Config where
  id : Nat
  peers : List Nat
  electionTick : Int := 0
  heartbeatTick : Int := 0
  rand : Option (Nat -> Nat -> Nat) := none
  leaseRead : Bool := false

structure Node where
  id : Nat
  role : Role := .follower
  term : Nat := 0
  vote : Nat := 0
  lead : Nat := 0
  voters : List Nat := []
  learners : List Nat := []
  pendingConfIndex : Nat := 0
  transferee : Nat := 0
  log : RaftLog := newLog
  votes : Finset Nat := ∅
  preVotes : Finset Nat := ∅
  nextIndex : Nat -> Option Nat := fun _ => none
  matchIndex : Nat -> Nat := fun _ => 0
  msgs : List Message := []
  stabled : Nat := 0
  prevHard : HardState := {}
  electionTick : Nat := 10
  heartbeatTick : Nat := 1
  rand : Option (Nat -> Nat -> Nat) := none
  randCalls : Nat := 0
  randSeq : UInt64 := 0
  electionElapsed : Nat := 0
  heartbeatElapse : Nat := 0
  randomTimeout : Nat := 0
  readReady : List ReadState := []
  roundReads : List PendingRead := []
  pendingReads : List PendingRead := []
  readAcks : Finset Nat := ∅
  leaseAcks : Option (Finset Nat) := none
  leaseElapsed : Nat := 0
  useLease : Bool := false

namespace Node

def peers (n : Node) : List Nat :=
  n.voters ++ n.learners

def quorum (n : Node) : Nat :=
  n.voters.length / 2 + 1

/-!
## Timers
-/

def splitmix (randSeq : UInt64) : UInt64 × UInt64 :=
  let seq := randSeq + 0x9e3779b97f4a7c15
  let z := (seq ^^^ (seq >>> 30)) * 0xbf58476d1ce4e5b9
  let z := (z ^^^ (z >>> 27)) * 0x94d049bb133111eb
  (seq, z ^^^ (z >>> 31))

/-- A number below `hi`, from the injected source or from a fixed splitmix
sequence. -/
def intn (n : Node) (hi : Nat) : Nat × Node :=
  if hi = 0 then (0, n)
  else
    match n.rand with
    | some rand => (rand n.randCalls hi, { n with randCalls := n.randCalls + 1 })
    | none =>
        let (seq, z) := splitmix n.randSeq
        (z.toNat % hi, { n with randSeq := seq })

def resetElectionTimer (n : Node) : Node :=
  let n := { n with electionElapsed := 0 }
  let (k, n) := n.intn n.electionTick
  { n with randomTimeout := n.electionTick + k }

/-!
## Roles
-/

/-- Moves to a term; the vote is given up only when the term changes. -/
def reset (n : Node) (term : Nat) : Except Panic Node :=
  if term < n.term then .error (.termRegression n.term term)
  else
    let n := if n.term < term then { n with term := term, vote := 0 } else n
    .ok { n with lead := 0, votes := ∅, preVotes := ∅ }.resetElectionTimer

def becomeFollower (n : Node) (term lead : Nat) : Except Panic Node := do
  let n <- n.reset term
  pure { n with role := .follower, lead := lead }

def becomeCandidate (n : Node) : Except Panic Node :=
  if n.role = .leader then .error .leaderBecomesCandidate
  else do
    let n <- n.reset (n.term + 1)
    pure { n with role := .candidate, vote := n.id, votes := {n.id} }

def becomePreCandidate (n : Node) : Except Panic Node :=
  if n.role = .leader then .error .leaderPreCampaigns
  else
    pure
      { n with
        role := .candidate
        lead := 0
        preVotes := {n.id} }.resetElectionTimer

/-- Queues a message; the term defaults to the node's own. -/
def send (n : Node) (m : Message) : Node :=
  let m := { m with fromId := n.id }
  let m := if m.term = 0 then { m with term := n.term } else m
  { n with msgs := n.msgs ++ [m] }

/-!
## Replication
-/

/-- The index before `next`, in 64-bit arithmetic: an absent entry of
`nextIndex` wraps around. -/
def prevIndexOf (next : Nat) : Nat :=
  if next = 0 then 0xffffffffffffffff else next - 1

/-- Ships one follower the entries after its next index, or tells the caller
to ship the snapshot. -/
def sendAppend (n : Node) (target : Nat) : Except Panic Node :=
  let next := (n.nextIndex target).getD 0
  let prevIndex := prevIndexOf next
  match n.log.term prevIndex with
  | none =>
      let n := n.send
        { type := .snap
          toId := target
          logIndex := n.log.snapIndex
          logTerm := n.log.snapTerm }
      pure
        { n with
          nextIndex :=
            Function.update n.nextIndex target (some (n.log.snapIndex + 1)) }
  | some prevTerm => do
      let ents <- n.log.slice next (n.log.lastIndex + 1)
      pure (n.send
        { type := .app
          toId := target
          logIndex := prevIndex
          logTerm := prevTerm
          entries := ents
          commit := min n.log.committed (prevIndex + ents.length) })

def bcastAppend (n : Node) : Except Panic Node :=
  n.peers.foldlM (fun n p => if p = n.id then pure n else n.sendAppend p) n

def roundActive (n : Node) : Bool :=
  n.roundReads ≠ []

def bcastHeartbeat (n : Node) : Except Panic Node :=
  let n := if n.roundActive then { n with readAcks := {n.id} } else n
  n.bcastAppend

/-- Commits the highest entry of the current term that a quorum has matched.
The leader's own match is its persisted prefix. -/
def maybeCommit (n : Node) : Except Panic (Bool × Node) :=
  if n.role ≠ .leader then pure (false, n)
  else
    let n :=
      { n with
        matchIndex :=
          Function.update n.matchIndex n.id (min n.stabled n.log.lastIndex) }
    let sorted := (n.voters.map n.matchIndex).insertionSort (fun a b => b ≤ a)
    match sorted[n.quorum - 1]? with
    | none => .error (.indexOutOfRange (n.quorum - 1) sorted.length)
    | some candidate =>
        if candidate ≤ n.log.committed then pure (false, n)
        else if n.log.term candidate ≠ some n.term then pure (false, n)
        else do
          let log <- n.log.commitTo candidate
          pure (true, { n with log := log })

/-- Leadership starts with an entry of the new term: only by committing it may
entries of earlier terms commit. -/
def becomeLeader (n : Node) : Except Panic Node :=
  if n.role ≠ .candidate then .error .leaderWithoutCandidacy
  else do
    let n :=
      { n with
        role := .leader
        lead := n.id
        transferee := 0
        heartbeatElapse := 0
        leaseElapsed := 0
        leaseAcks := none
        roundReads := []
        pendingReads := []
        readAcks := ∅
        nextIndex := fun p =>
          if p ∈ n.peers then some (n.log.lastIndex + 1) else none
        matchIndex := fun _ => 0 }
    let log <- n.log.append [{ index := n.log.lastIndex + 1, term := n.term }]
    let (_, n) <- { n with log := log }.maybeCommit
    n.bcastHeartbeat

def transferLeader (n : Node) (target : Nat) : Except Panic (Bool × Node) :=
  if n.role ≠ .leader ∨ target = n.id ∨ target ∉ n.voters then pure (false, n)
  else
    let n := { n with transferee := target }
    if n.log.lastIndex ≤ n.matchIndex target then
      pure (true, n.send { type := .timeoutNow, toId := target })
    else do
      let n <- n.sendAppend target
      pure (true, n)

/-!
## Elections
-/

def bcastVote (n : Node) (t : MessageType) (term : Nat) : Except Panic Node :=
  n.peers.foldlM
    (fun n p =>
      if p = n.id then pure n
      else do
        let lastTerm <- n.log.lastTerm
        pure (n.send
          { type := t
            toId := p
            term := term
            logIndex := n.log.lastIndex
            logTerm := lastTerm }))
    n

def startElection (n : Node) : Except Panic Node := do
  let n <- n.becomeCandidate
  if n.quorum ≤ n.votes.card then n.becomeLeader
  else n.bcastVote .vote n.term

def campaign (n : Node) : Except Panic Node :=
  if n.id ∉ n.voters then pure n
  else do
    let n <- n.becomePreCandidate
    if n.quorum ≤ n.preVotes.card then n.startElection
    else n.bcastVote .preVote (n.term + 1)

def tick (n : Node) : Except Panic Node :=
  if n.role = .leader then
    let n :=
      { n with
        leaseElapsed := n.leaseElapsed + 1
        heartbeatElapse := n.heartbeatElapse + 1 }
    if n.heartbeatTick ≤ n.heartbeatElapse then
      { n with heartbeatElapse := 0 }.bcastHeartbeat
    else pure n
  else
    let n := { n with electionElapsed := n.electionElapsed + 1 }
    if n.randomTimeout ≤ n.electionElapsed then n.campaign else pure n

/-!
## Reads
-/

def toReadStates (rs : List PendingRead) : List ReadState :=
  rs.map fun r => { id := r.id, index := r.index }

def closeRound (n : Node) : Node :=
  { n with
    readReady := n.readReady ++ toReadStates n.roundReads
    roundReads := []
    readAcks := ∅ }

/-- The source's `maybeStartReadRound` and `confirmReadRound` call each other;
the second call finds no queued read, so two rounds are enough. -/
def startRounds : Nat -> Node -> Except Panic Node
  | 0, n => pure n
  | fuel + 1, n =>
      if n.roundActive ∨ n.pendingReads = [] ∨ n.role ≠ .leader then pure n
      else
        let n :=
          { n with
            roundReads := n.pendingReads
            pendingReads := []
            readAcks := {n.id} }
        if n.useLease ∧ n.leaseElapsed < n.electionTick then
          startRounds fuel n.closeRound
        else if n.quorum ≤ n.readAcks.card then
          startRounds fuel n.closeRound
        else n.bcastHeartbeat

def maybeStartReadRound (n : Node) : Except Panic Node :=
  startRounds 2 n

def confirmReadRound (n : Node) : Except Panic Node :=
  n.closeRound.maybeStartReadRound

theorem startRounds_fuel (n : Node) (fuel : Nat) (h : n.pendingReads = []) :
    startRounds (fuel + 1) n = .ok n := by
  rw [startRounds, if_pos (Or.inr (Or.inl h))]
  rfl

/-- The equation of the source, with its mutual call. -/
theorem maybeStartReadRound_eq (n : Node) :
    n.maybeStartReadRound =
      if n.roundActive ∨ n.pendingReads = [] ∨ n.role ≠ .leader then pure n
      else
        let n :=
          { n with
            roundReads := n.pendingReads
            pendingReads := []
            readAcks := {n.id} }
        if n.useLease ∧ n.leaseElapsed < n.electionTick then
          n.confirmReadRound
        else if n.quorum ≤ n.readAcks.card then
          n.confirmReadRound
        else n.bcastHeartbeat := by
  rw [maybeStartReadRound, startRounds]
  simp only [confirmReadRound, maybeStartReadRound]
  rw [startRounds_fuel _ 0 rfl, startRounds_fuel _ 1 rfl]

def readIndex (n : Node) (id : Nat) : Except Panic (Bool × Node) :=
  if n.role ≠ .leader then pure (false, n)
  else if n.log.term n.log.committed ≠ some n.term then pure (false, n)
  else do
    let read : PendingRead := { id := id, index := n.log.committed }
    let n <-
      { n with pendingReads := n.pendingReads ++ [read] }.maybeStartReadRound
    pure (true, n)

/-!
## Message handlers
-/

def renewLeaseAck (n : Node) (sender : Nat) : Node :=
  let acks := insert sender (n.leaseAcks.getD ({n.id} : Finset Nat))
  if n.quorum ≤ acks.card then
    { n with leaseElapsed := 0, leaseAcks := none }
  else { n with leaseAcks := some acks }

def handleApp (n : Node) (m : Message) : Except Panic Node := do
  let n := { n with role := .follower, lead := m.fromId }.resetElectionTimer
  let (accepted, log) <-
    n.log.maybeAppend m.logIndex m.logTerm m.commit m.entries
  let n := { n with log := log }
  match accepted with
  | none =>
      let hint := n.log.lastIndex + 1
      let hint := if m.logIndex < hint then m.logIndex else hint
      pure (n.send
        { type := .appResp, toId := m.fromId, reject := true, logIndex := hint })
  | some lastNew =>
      pure (n.send { type := .appResp, toId := m.fromId, logIndex := lastNew })

def countReadAck (n : Node) (sender : Nat) : Except Panic Node :=
  if n.roundActive then
    let n := { n with readAcks := insert sender n.readAcks }
    if n.quorum ≤ n.readAcks.card then n.confirmReadRound else pure n
  else pure n

def advanceMatch (n : Node) (m : Message) : Except Panic Node :=
  if n.matchIndex m.fromId < m.logIndex then do
    let (committed, n) <- { n with
      matchIndex := Function.update n.matchIndex m.fromId m.logIndex
      nextIndex :=
        Function.update n.nextIndex m.fromId (some (m.logIndex + 1)) }.maybeCommit
    if committed then n.bcastAppend else pure n
  else pure n

def handleAppResp (n : Node) (m : Message) : Except Panic Node :=
  if n.role ≠ .leader then pure n
  else if m.reject then
    let n :=
      if m.logIndex < (n.nextIndex m.fromId).getD 0 then
        { n with
          nextIndex :=
            Function.update n.nextIndex m.fromId (some (max m.logIndex 1)) }
      else n
    n.sendAppend m.fromId
  else if n.matchIndex m.fromId ≤ m.logIndex then do
    let n <- n.advanceMatch m
    let n := n.renewLeaseAck m.fromId
    let n <- n.countReadAck m.fromId
    if n.transferee = m.fromId ∧ n.log.lastIndex ≤ n.matchIndex m.fromId then
      pure (n.send { type := .timeoutNow, toId := m.fromId })
    else pure n
  else pure n

def handlePreVote (n : Node) (m : Message) : Except Panic Node := do
  let upToDate <-
    if n.term < m.term then n.log.isUpToDate m.logIndex m.logTerm
    else pure false
  pure (n.send
    { type := .preVoteResp
      toId := m.fromId
      term := m.term
      reject := !upToDate })

def handlePreVoteResp (n : Node) (m : Message) : Except Panic Node :=
  if n.role ≠ .candidate ∨ n.votes ≠ ∅ then pure n
  else
    let n :=
      if !m.reject ∧ m.fromId ∈ n.voters then
        { n with preVotes := insert m.fromId n.preVotes }
      else n
    if n.quorum ≤ n.preVotes.card then n.startElection else pure n

/-- Grants at most one vote per term, to an up-to-date candidate. -/
def handleVote (n : Node) (m : Message) : Except Panic Node := do
  let grant <-
    if n.vote = 0 ∨ n.vote = m.fromId then
      n.log.isUpToDate m.logIndex m.logTerm
    else pure false
  let n :=
    if grant then { n with vote := m.fromId }.resetElectionTimer else n
  pure (n.send { type := .voteResp, toId := m.fromId, reject := !grant })

def handleVoteResp (n : Node) (m : Message) : Except Panic Node :=
  if n.role ≠ .candidate then pure n
  else
    let n :=
      if !m.reject ∧ m.fromId ∈ n.voters then
        { n with votes := insert m.fromId n.votes }
      else n
    if n.quorum ≤ n.votes.card then n.becomeLeader else pure n

/-- A proposal's entries get their indexes, the current term and the normal
type here. -/
def handlePropose (n : Node) (m : Message) :
    Except Panic (Option ProposeError × Node) :=
  if n.role ≠ .leader then pure (some .notLeader, n)
  else if n.transferee ≠ 0 then pure (some .notLeader, n)
  else do
    let li := n.log.lastIndex
    let ents := m.entries.mapIdx fun i e =>
      { index := li + 1 + i, term := n.term, data := e.data }
    let log <- n.log.append ents
    let (_, n) <- { n with log := log }.maybeCommit
    let n <- n.bcastAppend
    pure (none, n)

def dispatch (n : Node) (m : Message) : Except Panic Node :=
  match m.type with
  | .vote => n.handleVote m
  | .voteResp => n.handleVoteResp m
  | .app => n.handleApp m
  | .appResp => n.handleAppResp m
  | .timeoutNow => if n.id ∈ n.voters then n.startElection else pure n
  | .prop | .preVote | .preVoteResp | .snap => pure n

def step (n : Node) (m : Message) : Except Panic (Option ProposeError × Node) :=
  match m.type with
  | .prop => n.handlePropose m
  | .preVote => do
      let n <- n.handlePreVote m
      pure (none, n)
  | .preVoteResp => do
      let n <- n.handlePreVoteResp m
      pure (none, n)
  | _ =>
      if m.term < n.term then
        if m.type = .vote then
          pure (none, n.send
            { type := .voteResp, toId := m.fromId, reject := true })
        else pure (none, n)
      else do
        let n <-
          if n.term < m.term then
            n.becomeFollower m.term (if m.type = .app then m.fromId else 0)
          else pure n
        let n <- n.dispatch m
        pure (none, n)

def propose (n : Node) (data : Bytes) :
    Except Panic (Option ProposeError × Node) :=
  n.step { type := .prop, entries := [{ data := data }] }

/-!
## Membership
-/

def initProgress (n : Node) (id : Nat) : Node :=
  if n.role ≠ .leader ∨ id = n.id then n
  else
    match n.nextIndex id with
    | some _ => n
    | none =>
        { n with
          nextIndex :=
            Function.update n.nextIndex id (some (n.log.lastIndex + 1))
          matchIndex := Function.update n.matchIndex id 0 }

def applyConfChange (n : Node) (cc : ConfChange) : Node :=
  match cc.type with
  | .addNode =>
      { n with
        learners := n.learners.erase cc.node
        voters :=
          if cc.node ∈ n.voters then n.voters
          else n.voters ++ [cc.node] }.initProgress cc.node
  | .addLearner =>
      if cc.node ∈ n.voters then n
      else
        { n with
          learners :=
            if cc.node ∈ n.learners then n.learners
            else n.learners ++ [cc.node] }.initProgress cc.node
  | .removeNode =>
      { n with
        voters := n.voters.erase cc.node
        learners := n.learners.erase cc.node
        nextIndex := Function.update n.nextIndex cc.node none
        matchIndex := Function.update n.matchIndex cc.node 0
        transferee := if n.transferee = cc.node then 0 else n.transferee }
  | .other _ => n

/-- A membership change takes effect when its entry is applied; an entry that
does not decode is ignored. -/
def applyConfEntry (n : Node) (e : Entry) : Node :=
  if e.type = .confChange then
    match decodeConfChange e.data with
    | some cc => n.applyConfChange cc
    | none => n
  else n

def proposeConfChange (n : Node) (cc : ConfChange) :
    Except Panic (Option ProposeError × Node) :=
  if n.role ≠ .leader then pure (some .notLeader, n)
  else if n.log.applied < n.pendingConfIndex then
    pure (some .confChangeInFlight, n)
  else do
    let li := n.log.lastIndex
    let log <- n.log.append
      [{ type := .confChange
         index := li + 1
         term := n.term
         data := cc.encode }]
    let (_, n) <-
      { n with log := log, pendingConfIndex := li + 1 }.maybeCommit
    let n <- n.bcastAppend
    pure (none, n)

/-!
## Effects
-/

def hardState (n : Node) : HardState :=
  { term := n.term, vote := n.vote, commit := n.log.committed }

def readyReadStates (n : Node) : List ReadState :=
  n.readReady.filter fun r => decide (r.index ≤ n.log.applied)

def hasReady (n : Node) : Bool :=
  !n.msgs.isEmpty || n.hardState ≠ n.prevHard ||
    decide (n.stabled < n.log.lastIndex) ||
    decide (n.log.applied < min n.log.committed n.stabled) ||
    !n.readyReadStates.isEmpty

def unstableEntries (n : Node) : Except Panic (List Entry) :=
  if n.stabled < n.log.lastIndex then
    n.log.slice (n.stabled + 1) (n.log.lastIndex + 1)
  else pure []

/-- The committed entries that are still to be applied.  Only persisted
entries are. -/
def nextCommitted (n : Node) : Except Panic (List Entry) :=
  let applyTo := min n.log.committed n.stabled
  if n.log.applied < applyTo then
    n.log.slice (n.log.applied + 1) (applyTo + 1)
  else pure []

def ready (n : Node) : Except Panic (Ready × Node) := do
  let entries <- n.unstableEntries
  let committedEntries <- n.nextCommitted
  pure
    ({ hardState := if n.hardState ≠ n.prevHard then some n.hardState else none
       entries := entries
       committedEntries := committedEntries
       messages := n.msgs
       readStates := n.readyReadStates },
     { n with msgs := [] })

/-- Entries that are now durable count as the leader's own match. -/
def advanceStable (n : Node) (ents : List Entry) : Except Panic Node :=
  match ents.getLast? with
  | none => pure n
  | some e => do
      let (_, n) <- { n with stabled := e.index }.maybeCommit
      pure n

def advanceApplied (n : Node) (ents : List Entry) : Except Panic Node :=
  match ents.getLast? with
  | none => pure n
  | some e => do
      let n := ents.foldl applyConfEntry n
      let log <- n.log.appliedTo e.index
      pure { n with log := log }

def dropServed (n : Node) (served : List ReadState) : Node :=
  { n with
    readReady := n.readReady.filter fun r => r.id ∉ served.map ReadState.id }

def advance (n : Node) (rd : Ready) : Except Panic Node := do
  let n := { n with prevHard := rd.hardState.getD n.prevHard }
  let n <- n.advanceStable rd.entries
  let n <- n.advanceApplied rd.committedEntries
  pure (n.dropServed rd.readStates)

/-!
## Construction, snapshots
-/

def recoveredLog (rec : Recovered) : Except Panic RaftLog := do
  let log :=
    if 0 < rec.snapIndex then snapshotLog rec.snapIndex rec.snapTerm
    else newLog
  let log <- log.append rec.entries
  log.commitTo rec.hardState.commit

def replayConfEntry (n : Node) (i : Nat) (e : Entry) : Node :=
  if e.type = .confChange then
    match decodeConfChange e.data with
    | some cc =>
        let n := n.applyConfChange cc
        if n.log.applied < i then { n with pendingConfIndex := i } else n
    | none => n
  else n

def newNode (cfg : Config) (rec : Recovered) (appliedIndex : Nat) :
    Except Panic Node :=
  if cfg.id ∉ cfg.peers then .error (.missingFromPeers cfg.id cfg.peers)
  else do
    let log <- recoveredLog rec
    if hcommit : log.committed < appliedIndex then
      .error (.appliedBeyondCommit appliedIndex log.committed)
    else if hsnap : appliedIndex < log.snapIndex then
      .error (.appliedBelowSnapshot appliedIndex log.snapIndex)
    else
      let n : Node :=
        { id := cfg.id
          voters := cfg.peers.dedup
          term := rec.hardState.term
          vote := rec.hardState.vote
          log :=
            { log with
              applied := appliedIndex
              snapIndex_le := Nat.le_of_not_lt hsnap
              applied_le := Nat.le_of_not_lt hcommit }
          stabled := log.lastIndex
          electionTick :=
            if cfg.electionTick ≤ 0 then 10 else cfg.electionTick.toNat
          heartbeatTick :=
            if cfg.heartbeatTick ≤ 0 then 1 else cfg.heartbeatTick.toNat
          rand := cfg.rand
          useLease := cfg.leaseRead }
      let n := log.entries.zipIdx.foldl
        (fun n x => n.replayConfEntry (log.offset + x.2) x.1) n
      pure { n with prevHard := n.hardState }.resetElectionTimer

def newNodeConfig (cfg : Config) : Except Panic Node :=
  newNode cfg {} 0

def restoreNode (cfg : Config) (rec : Recovered) (appliedIndex : Nat) :
    Except Panic Node :=
  newNode cfg rec appliedIndex

/-- Installs a snapshot boundary on a follower; a stale one changes nothing. -/
def restoreSnapshot (n : Node) (index term : Nat) : Bool × Node :=
  if index ≤ n.log.committed ∧ index ≤ n.log.snapIndex then (false, n)
  else if index ≤ n.log.applied then (false, n)
  else
    let n :=
      { n with
        log := snapshotLog index term
        stabled := index
        role := .follower }
    let n :=
      if n.lead ≠ 0 then
        n.send { type := .appResp, toId := n.lead, logIndex := index }
      else n
    (true, n)

def compactTo (n : Node) (index : Nat) : Except Panic Node := do
  let log <- n.log.compactTo index
  pure { n with log := log }

def entries (n : Node) : Except Panic (List Entry) :=
  n.log.slice n.log.firstIndex (n.log.lastIndex + 1)

end Node

end Raft
end Basalt
