import Basalt.Lib.Bytes
import Basalt.Wal.Record

/-!
# Data of the consensus core

Roles, messages, entries and the batch of effects (`Ready`) a node hands to
its caller.  Node identifiers, terms and indexes are natural numbers; the
identifier zero stands for "none", as in the source.
-/

namespace Basalt
namespace Raft

open Lib

inductive Role where
  | follower
  | candidate
  | leader
deriving DecidableEq, Repr

inductive MessageType where
  | prop
  | vote
  | voteResp
  | app
  | appResp
  | preVote
  | preVoteResp
  | snap
  | timeoutNow
deriving DecidableEq, Repr

/-- The tag of an entry is one byte; the values above one are not used by the
core, but a decoder lets them through. -/
inductive EntryType where
  | normal
  | confChange
  | other (tag : Fin 254)
deriving DecidableEq, Repr

def EntryType.toByte : EntryType -> UInt8
  | normal => 0
  | confChange => 1
  | other tag => UInt8.ofNat (tag.val + 2)

def EntryType.ofByte (b : UInt8) : EntryType :=
  if b = 0 then normal
  else if b = 1 then confChange
  else other ⟨b.toNat - 2, by have := b.toNat_lt; lia⟩

@[simp]
theorem EntryType.ofByte_toByte (t : EntryType) : ofByte t.toByte = t := by
  cases t with
  | normal | confChange => rfl
  | other tag =>
      revert tag
      decide +kernel

structure Entry where
  type : EntryType := .normal
  index : Nat := 0
  term : Nat := 0
  data : Bytes := []
deriving DecidableEq, Repr

structure HardState where
  term : Nat := 0
  vote : Nat := 0
  commit : Nat := 0
deriving DecidableEq, Repr

structure Message where
  type : MessageType
  fromId : Nat := 0
  toId : Nat := 0
  term : Nat := 0
  logIndex : Nat := 0
  logTerm : Nat := 0
  entries : List Entry := []
  commit : Nat := 0
  reject : Bool := false
deriving DecidableEq, Repr

structure ReadState where
  id : Nat
  index : Nat
deriving DecidableEq, Repr

structure PendingRead where
  id : Nat
  index : Nat
deriving DecidableEq, Repr

structure Ready where
  hardState : Option HardState := none
  entries : List Entry := []
  committedEntries : List Entry := []
  messages : List Message := []
  readStates : List ReadState := []
deriving DecidableEq, Repr

structure Recovered where
  hardState : HardState := {}
  snapIndex : Nat := 0
  snapTerm : Nat := 0
  entries : List Entry := []
deriving DecidableEq, Repr

/-!
## Failures

A panic of the source ends the process.  The model returns it, with the values
its message prints.
-/

inductive Panic where
  | missingFromPeers (id : Nat) (peers : List Nat)
  | compactBeyondApplied (index applied : Nat)
  | compactUnknownIndex (index : Nat)
  | lastTermUnavailable
  | appendGap (index want : Nat)
  | truncateBelowCommitted (index committed : Nat)
  | truncateBelowFirst (index first : Nat)
  | sliceOutside (lo hi first last : Nat)
  | commitBeyondLast (index last : Nat)
  | appliedOutside (index applied committed : Nat)
  | appliedBeyondCommit (index committed : Nat)
  | appliedBelowSnapshot (index snapshot : Nat)
  | termRegression (term next : Nat)
  | leaderBecomesCandidate
  | leaderPreCampaigns
  | leaderWithoutCandidacy
  | indexOutOfRange (index length : Nat)
  | wal (p : Wal.Panic)
deriving DecidableEq, Repr

def Panic.message : Panic -> String
  | missingFromPeers id peers => s!"raft: node {id} missing from peers {peers}"
  | compactBeyondApplied index applied =>
      s!"raft: compact to {index} beyond applied {applied}"
  | compactUnknownIndex index => s!"raft: compact to unknown index {index}"
  | lastTermUnavailable => "raft: last term unavailable"
  | appendGap index want => s!"raft: append at {index}, want {want}"
  | truncateBelowCommitted index committed =>
      s!"raft: truncate at {index} below committed {committed}"
  | truncateBelowFirst index first =>
      s!"raft: truncate at {index} below first index {first}"
  | sliceOutside lo hi first last =>
      s!"raft: slice [{lo},{hi}) outside [{first},{last}]"
  | commitBeyondLast index last =>
      s!"raft: commit {index} beyond last index {last}"
  | appliedOutside index applied committed =>
      s!"raft: applied {index} outside ({applied}, {committed}]"
  | appliedBeyondCommit index committed =>
      s!"raft: applied index {index} beyond commit {committed}"
  | appliedBelowSnapshot index snapshot =>
      s!"raft: applied index {index} below snapshot {snapshot} — compaction outran the durable state machine"
  | termRegression term next => s!"raft: term regression {term} -> {next}"
  | leaderBecomesCandidate => "raft: leader cannot become candidate directly"
  | leaderPreCampaigns => "raft: leader cannot pre-campaign"
  | leaderWithoutCandidacy => "raft: only a candidate can become leader"
  | indexOutOfRange index length =>
      s!"runtime error: index out of range [{index}] with length {length}"
  | wal p => p.message

inductive ProposeError where
  | notLeader
  | confChangeInFlight
deriving DecidableEq, Repr

def ProposeError.message : ProposeError -> String
  | notLeader => "raft: not the leader"
  | confChangeInFlight =>
      "raft: a configuration change is already in flight"

/-!
## Membership changes
-/

/-- The action byte of a membership change; unknown actions change nothing. -/
inductive ConfChangeType where
  | addNode
  | removeNode
  | addLearner
  | other (tag : Fin 253)
deriving DecidableEq, Repr

def ConfChangeType.toByte : ConfChangeType -> UInt8
  | addNode => 0
  | removeNode => 1
  | addLearner => 2
  | other tag => UInt8.ofNat (tag.val + 3)

def ConfChangeType.ofByte (b : UInt8) : ConfChangeType :=
  if b = 0 then addNode
  else if b = 1 then removeNode
  else if b = 2 then addLearner
  else other ⟨b.toNat - 3, by have := b.toNat_lt; lia⟩

structure ConfChange where
  type : ConfChangeType
  node : Nat
deriving DecidableEq, Repr

def ConfChange.encode (cc : ConfChange) : Bytes :=
  cc.type.toByte :: putLE 8 cc.node

/-- The decoder refuses every length other than nine. -/
def decodeConfChange (data : Bytes) : Option ConfChange :=
  match data with
  | tag :: node =>
      if node.length = 8 then
        some { type := ConfChangeType.ofByte tag, node := getLE node }
      else none
  | [] => none

@[simp]
theorem ConfChangeType.ofByte_toByte (t : ConfChangeType) :
    ofByte t.toByte = t := by
  cases t with
  | addNode | removeNode | addLearner => rfl
  | other tag =>
      revert tag
      decide +kernel

theorem decodeConfChange_encode {cc : ConfChange} (h : cc.node < rangeLE 8) :
    decodeConfChange cc.encode = some cc := by
  have hnode : getLE (putLE 8 cc.node) = cc.node := getLE_putLE h
  simp [decodeConfChange, ConfChange.encode, hnode]

end Raft
end Basalt
