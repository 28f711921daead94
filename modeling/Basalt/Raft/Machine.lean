import Basalt.Lib.Outcome
import Basalt.Raft.Node

/-!
# Atomic transitions of a node

Every operation of a node is a sequence of a few kinds of small transitions: a
new term, a granted vote, an appended entry, a queued message.  This module
lists them, and `Raft.Operations` shows that the operations take nothing but
these.  An invariant of runs is then checked once per kind of transition, with
the condition under which the code takes it.

Timers, leases, hints about the leader and the pre-vote tally are not part of
`Core`: no transition depends on them.
-/

namespace Basalt
namespace Raft

structure Core where
  id : Nat
  voters : List Nat
  learners : List Nat
  role : Role
  term : Nat
  vote : Nat
  votes : Finset Nat
  log : RaftLog
  nextIndex : Nat -> Option Nat
  matchIndex : Nat -> Nat
  msgs : List Message
  stabled : Nat
  readReady : List ReadState
  roundReads : List PendingRead
  pendingReads : List PendingRead
  readAcks : Finset Nat
  useLease : Bool
  prevHard : HardState

def Node.core (n : Node) : Core where
  id := n.id
  voters := n.voters
  learners := n.learners
  role := n.role
  term := n.term
  vote := n.vote
  votes := n.votes
  log := n.log
  nextIndex := n.nextIndex
  matchIndex := n.matchIndex
  msgs := n.msgs
  stabled := n.stabled
  readReady := n.readReady
  roundReads := n.roundReads
  pendingReads := n.pendingReads
  readAcks := n.readAcks
  useLease := n.useLease
  prevHard := n.prevHard

namespace Core

def quorum (c : Core) : Nat :=
  c.voters.length / 2 + 1

def queueRead (c : Core) (id : Nat) : Core :=
  { c with
    pendingReads := c.pendingReads ++ [{ id := id, index := c.log.committed }] }

def stamp (c : Core) (m : Message) : Message :=
  let m := { m with fromId := c.id }
  if m.term = 0 then { m with term := c.term } else m

def say (c : Core) (m : Message) : Core :=
  { c with msgs := c.msgs ++ [c.stamp m] }

def voteRequest (c : Core) (target lastTerm : Nat) : Message :=
  { type := .vote
    fromId := c.id
    toId := target
    term := c.term
    logIndex := c.log.lastIndex
    logTerm := lastTerm }

def appendRequest (c : Core) (target next prevTerm : Nat)
    (ents : List Entry) : Message :=
  { type := .app
    toId := target
    logIndex := next - 1
    logTerm := prevTerm
    entries := ents
    commit := min c.log.committed (next - 1 + ents.length) }

end Core

theorem stamp_eq (c : Core) (m : Message) :
    c.stamp m =
      { m with
        fromId := c.id
        term := if m.term = 0 then c.term else m.term } := by
  rw [Core.stamp]
  dsimp only
  split
  · rfl
  · rfl

/-- What an operation of a node handles: a message, or nothing.  `counts` tells
whether the message may be counted for a read round. -/
structure Input where
  message : Option Message := none
  counts : Bool := false

def Input.of (m : Message) : Input :=
  { message := some m, counts := true }

/-- Messages that carry no promise: probes, snapshot notices, refused votes. -/
def Message.IsNotice (m : Message) : Prop :=
  m.type = .preVote ∨ m.type = .preVoteResp ∨ m.type = .snap ∨
    (m.type = .voteResp ∧ m.reject = true)

/-- The entries a leader appends: contiguous, of its term, of the normal type,
and either empty or carrying data of the proposal being handled. -/
def Core.Appends (c : Core) (inp : Input) (es : List Entry) : Prop :=
  forall i e, es[i]? = some e ->
    e.index = c.log.lastIndex + 1 + i ∧ e.term = c.term ∧ e.type = .normal ∧
      (e.data = [] ∨
        exists m d, inp.message = some m ∧ m.type = .prop ∧ d ∈ m.entries ∧
          e.data = d.data)

def Core.SendsTo (c : Core) (inp : Input) (p : Nat) : Prop :=
  p ≠ c.id ∨ exists m, inp.message = some m ∧ m.type = .appResp ∧ m.fromId = p

/-- The small transitions of a node while it handles `inp`. -/
inductive Move (inp : Input) : Core -> Core -> Prop where
  | adopt {c : Core} {t : Nat} :
      c.term < t ->
      Move inp c
        { c with term := t, vote := 0, votes := ∅, role := .follower }
  | campaign {c : Core} {ms : List Message} :
      c.role ≠ .leader ->
      (forall m, m ∈ ms -> exists target lastTerm,
        target ≠ c.id ∧ c.log.lastTerm = .ok lastTerm ∧
          m = { c with term := c.term + 1 }.voteRequest target lastTerm) ->
      Move inp c
        { c with
          term := c.term + 1
          role := .candidate
          vote := c.id
          votes := {c.id}
          msgs := c.msgs ++ ms }
  | preCampaign {c : Core} :
      c.role ≠ .leader ->
      Move inp c { c with role := .candidate }
  | notice {c : Core} {ms : List Message} :
      (forall m, m ∈ ms -> m.IsNotice ∧ m.fromId = c.id) ->
      Move inp c { c with msgs := c.msgs ++ ms }
  | grant {c : Core} {m : Message} :
      inp.message = some m -> m.type = .vote -> m.term = c.term ->
      c.vote = 0 ∨ c.vote = m.fromId ->
      c.log.isUpToDate m.logIndex m.logTerm = .ok true ->
      Move inp c
        ({ c with vote := m.fromId }.say
          { type := .voteResp, toId := m.fromId })
  | tally {c : Core} {m : Message} :
      inp.message = some m -> m.type = .voteResp -> m.term = c.term ->
      c.role = .candidate -> m.reject = false -> m.fromId ∈ c.voters ->
      Move inp c { c with votes := insert m.fromId c.votes }
  | lead {c : Core} :
      c.role = .candidate -> c.quorum ≤ c.votes.card ->
      Move inp c
        { c with
          role := .leader
          roundReads := []
          pendingReads := []
          readAcks := ∅
          nextIndex := fun p =>
            if p ∈ c.voters ++ c.learners then some (c.log.lastIndex + 1)
            else none
          matchIndex := fun _ => 0 }
  | append {c : Core} {es : List Entry} {log : RaftLog} :
      c.role = .leader -> c.Appends inp es -> c.log.append es = .ok log ->
      Move inp c { c with log := log }
  | ownMatch {c : Core} :
      c.role = .leader ->
      Move inp c
        { c with
          matchIndex := Function.update c.matchIndex c.id
            (min c.stabled c.log.lastIndex) }
  | commit {c : Core} {i : Nat} {log : RaftLog} :
      c.role = .leader ->
      c.quorum ≤ c.voters.countP (fun p => i ≤ c.matchIndex p) ->
      c.log.term i = some c.term -> c.log.commitTo i = .ok log ->
      Move inp c { c with log := log }
  | ack {c : Core} {m : Message} :
      inp.message = some m -> m.type = .appResp -> m.term = c.term ->
      c.role = .leader -> m.reject = false ->
      Move inp c
        { c with
          matchIndex := Function.update c.matchIndex m.fromId m.logIndex
          nextIndex :=
            Function.update c.nextIndex m.fromId (some (m.logIndex + 1)) }
  | setNext {c : Core} {p x : Nat} :
      1 ≤ x ->
      Move inp c { c with nextIndex := Function.update c.nextIndex p (some x) }
  | sendApp {c : Core} {p next prevTerm : Nat} {ents : List Entry} :
      c.role = .leader -> c.SendsTo inp p -> 1 ≤ next ->
      c.log.term (next - 1) = some prevTerm ->
      c.log.slice next (c.log.lastIndex + 1) = .ok ents ->
      Move inp c (c.say (c.appendRequest p next prevTerm ents))
  | timeoutNow {c : Core} {p : Nat} :
      c.role = .leader -> c.SendsTo inp p ->
      Move inp c (c.say { type := .timeoutNow, toId := p })
  | follow {c : Core} {m : Message} :
      inp.message = some m -> m.type = .app -> m.term = c.term ->
      Move inp c { c with role := .follower }
  | accept {c : Core} {m : Message} {lastNew : Nat} {log : RaftLog} :
      inp.message = some m -> m.type = .app -> m.term = c.term ->
      c.role = .follower ->
      c.log.maybeAppend m.logIndex m.logTerm m.commit m.entries =
        .ok (some lastNew, log) ->
      Move inp c
        ({ c with log := log }.say
          { type := .appResp, toId := m.fromId, logIndex := lastNew })
  | refuse {c : Core} {m : Message} {hint : Nat} :
      inp.message = some m -> m.type = .app -> m.term = c.term ->
      c.role = .follower ->
      Move inp c
        (c.say
          { type := .appResp
            toId := m.fromId
            reject := true
            logIndex := hint })
  | openRound {c : Core} :
      c.role = .leader -> c.roundReads = [] -> c.pendingReads ≠ [] ->
      Move inp c
        { c with
          roundReads := c.pendingReads
          pendingReads := []
          readAcks := {c.id} }
  | rearm {c : Core} :
      c.role = .leader -> c.roundReads ≠ [] ->
      Move inp c { c with readAcks := {c.id} }
  | countAck {c : Core} {m : Message} :
      inp.counts = true -> inp.message = some m -> m.type = .appResp -> m.term = c.term ->
      c.role = .leader -> m.reject = false -> c.roundReads ≠ [] ->
      Move inp c { c with readAcks := insert m.fromId c.readAcks }
  | closeRound {c : Core} :
      c.role = .leader ->
      c.useLease = true ∨ c.quorum ≤ c.readAcks.card ->
      Move inp c
        { c with
          readReady := c.readReady ++ Node.toReadStates c.roundReads
          roundReads := []
          readAcks := ∅ }

abbrev Moves (inp : Input) : Core -> Core -> Prop :=
  Relation.ReflTransGen (Move inp)

theorem Move.sameBase {inp : Input} {c c' : Core}
    (h : Move inp c c') :
    RaftLog.SameBase c.log c'.log ∧ c'.stabled = c.stabled := by
  cases h with
  | append _ _ hlog => exact ⟨RaftLog.sameBase_append hlog, rfl⟩
  | commit _ _ _ hlog => exact ⟨RaftLog.sameBase_commitTo hlog, rfl⟩
  | accept _ _ _ _ happ => exact ⟨RaftLog.sameBase_maybeAppend happ, rfl⟩
  | _ => exact ⟨RaftLog.SameBase.refl _, rfl⟩

theorem Moves.sameBase {inp : Input} {c c' : Core}
    (h : Moves inp c c') :
    RaftLog.SameBase c.log c'.log ∧ c'.stabled = c.stabled := by
  induction h with
  | refl => exact ⟨RaftLog.SameBase.refl _, rfl⟩
  | tail _ hlast ih =>
      exact ⟨ih.left.trans hlast.sameBase.left,
        hlast.sameBase.right.trans ih.right⟩

/-- The situations in which an operation of a node panics.  Each is excluded
by an invariant of the runs considered. -/
inductive Stuck (inp : Input) : Core -> Prop where
  /-- The node is no member of an empty voter set. -/
  | noVoters {c : Core} :
      c.voters = [] -> Stuck inp c
  /-- A leader sends to a peer without progress. -/
  | noProgress {c : Core} {p : Nat} :
      c.role = .leader ->
      p ∈ c.voters ++ c.learners ∨
        (exists m, inp.message = some m ∧ m.type = .appResp ∧ m.fromId = p) ->
      (forall x, c.nextIndex p = some x -> x = 0) ->
      Stuck inp c
  /-- A leader is told by the leader of its own term to campaign. -/
  | leaderTimeout {c : Core} {m : Message} :
      inp.message = some m -> m.type = .timeoutNow -> m.term = c.term ->
      c.role = .leader -> Stuck inp c
  /-- An append conflicts with a committed entry, leaves a gap or commits
  beyond the log. -/
  | badAppend {c : Core} {m : Message} {p : Panic} :
      inp.message = some m -> m.type = .app -> m.term = c.term ->
      c.role = .follower ->
      c.log.maybeAppend m.logIndex m.logTerm m.commit m.entries = .error p ->
      Stuck inp c

abbrev Effect (inp : Input) (c : Core) (post : Node -> Prop)
    (x : Except Panic Node) : Prop :=
  Lib.Outcome (Move inp) (Stuck inp) c Node.core post x

abbrev EffectOf {α : Type} (inp : Input) (c : Core)
    (post : α × Node -> Prop) (x : Except Panic (α × Node)) : Prop :=
  Lib.Outcome (Move inp) (Stuck inp) c (fun r => r.2.core) post x

end Raft
end Basalt
