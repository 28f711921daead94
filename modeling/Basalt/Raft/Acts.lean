import Basalt.Raft.Operations

/-!
# The operations by the fields they write

`Raft.Machine` describes the operations by the facts that the agreement argument
needs, and leaves out the tallies of pre-votes and leases and the exact progress
of the followers.  This module lists the writes themselves.  What a leader
records of an answer is set apart, since it is written before anything is sent.
-/

namespace Basalt
namespace Raft

open Lib Relation

namespace Node

/-- What an operation may have to do with: an acknowledgement that `acker` has
sent, or a pre-vote round. -/
structure Scope where
  acker : Option Nat := none
  probes : Bool := false

structure Holds (n n' : Node) : Prop where
  id_eq : n'.id = n.id
  voters : n'.voters = n.voters
  learners : n'.learners = n.learners
  msgs : n'.msgs = n.msgs
  matched : n'.matchIndex = n.matchIndex

/-- A node that may stand for election: one that campaigns already, or a voter. -/
def Eligible (n : Node) : Prop :=
  n.role = .candidate ∨ n.id ∈ n.voters

/-- The writes of an operation. -/
inductive Act (scope : Scope) : Node -> Node -> Prop where
  /-- Timers, hints and the index of the last membership change. -/
  | aside {n n' : Node} :
      n'.core = n.core -> n'.preVotes = n.preVotes -> n'.leaseAcks = n.leaseAcks ->
      Act scope n n'
  | pledge {n : Node} {candidate : Nat} :
      Act scope n { n with vote := candidate }
  | say {n : Node} {m : Message} :
      m.type ≠ .app -> m.type ≠ .snap -> m.type ≠ .preVote -> m.type ≠ .preVoteResp ->
      Act scope n (n.send m)
  | follow {n n' : Node} :
      n'.role = .follower -> n.term ≤ n'.term -> Holds n n' -> Act scope n n'
  | stand {n n' : Node} :
      n.role ≠ .leader -> n.Eligible -> n'.role = .candidate -> n'.votes ≠ ∅ ->
      n.term < n'.term -> Holds n n' -> Act scope n n'
  | elect {n : Node} {votes : Finset Nat} :
      n.role = .candidate -> votes ≠ ∅ -> Act scope n { n with votes := votes }
  | lead {n : Node} :
      n.role = .candidate ->
      Act scope n
        { n with
          role := .leader
          lead := n.id
          transferee := 0
          heartbeatElapse := 0
          leaseElapsed := 0
          leaseAcks := none
          roundReads := []
          pendingReads := []
          readAcks := ∅
          nextIndex := fun p =>
            if p ∈ n.peers then some (n.log.lastIndex + 1) else none
          matchIndex := fun _ => 0 }
  | append {n : Node} {es : List Entry} {log : RaftLog} :
      n.role = .leader -> n.log.append es = .ok log -> Act scope n { n with log := log }
  | commit {n : Node} {r : Bool × Node} :
      n.maybeCommit = .ok r -> Act scope n r.2
  | replicate {n n' : Node} {p : Nat} :
      n.role = .leader -> p ∈ n.peers -> p ≠ n.id -> n.sendAppend p = .ok n' ->
      Act scope n n'
  /-- Read rounds: a new one starts with the node itself. -/
  | reads {n : Node} {ready : List ReadState} {round pending : List PendingRead}
      {acks : Finset Nat} :
      acks = ∅ ∨ acks = {n.id} ∨ (acks = n.readAcks ∧ round = n.roundReads) ->
      Act scope n
        { n with
          readReady := ready
          roundReads := round
          pendingReads := pending
          readAcks := acks }
  | count {n : Node} {sender : Nat} :
      scope.acker = some sender -> n.role = .leader ->
      Act scope n { n with readAcks := insert sender n.readAcks }
  | renew {n : Node} {sender : Nat} :
      scope.acker = some sender -> n.role = .leader -> Act scope n (n.renewLeaseAck sender)
  | preCampaign {n n' : Node} :
      scope.probes = true -> n.role ≠ .leader -> n.Eligible ->
      n'.core = { n.core with role := .candidate } -> Act scope n n'
  | tally {n : Node} {votes : Finset Nat} :
      scope.probes = true -> n.role = .candidate -> Act scope n { n with preVotes := votes }
  | probe {n : Node} {m : Message} :
      scope.probes = true -> m.type = .preVote ∨ m.type = .preVoteResp ->
      Act scope n (n.send m)
  /-- A batch was persisted, or a log got a new base. -/
  | settle {n : Node} {log : RaftLog} {stabled : Nat} {hard : HardState} :
      log.lastIndex = n.log.lastIndex -> n.log.snapIndex ≤ log.snapIndex ->
      Act scope n { n with log := log, stabled := stabled, prevHard := hard }

abbrev Acts (scope : Scope) : Node -> Node -> Prop :=
  ReflTransGen (Act scope)

def recorded (n : Node) (m : Message) : Node :=
  if m.reject then
    if m.logIndex < (n.nextIndex m.fromId).getD 0 then
      { n with
        nextIndex := Function.update n.nextIndex m.fromId (some (max m.logIndex 1)) }
    else n
  else if n.matchIndex m.fromId < m.logIndex then
    { n with
      matchIndex := Function.update n.matchIndex m.fromId m.logIndex
      nextIndex := Function.update n.nextIndex m.fromId (some (m.logIndex + 1)) }
  else n

variable {n n' : Node} {m : Message} {scope : Scope}

theorem Acts.timer (n : Node) : Acts scope n n.resetElectionTimer := by
  rcases resetElectionTimer_fields n with ⟨_, _, _, h⟩
  rw [h]
  exact ReflTransGen.single (Act.aside rfl rfl rfl)

/-!
## Replication and reads
-/

theorem bcastAppend_acts (h : n.bcastAppend = .ok n') (hrole : n.role = .leader) :
    Acts scope n n' := by
  rw [bcastAppend] at h
  have hinv : Replicates n n' ∧ Acts scope n n' := by
    refine foldlM_invariant (P := fun k => Replicates n k ∧ Acts scope n k) ?_
      ⟨Replicates.refl n, ReflTransGen.refl⟩ h
    rintro a p b hp ⟨hframe, hacts⟩ hb
    split at hb
    · cases hb
      exact ⟨hframe, hacts⟩
    · next hne =>
        refine ⟨hframe.trans (sendAppend_replicates hb), hacts.tail (Act.replicate ?_ ?_ hne hb)⟩
        · rcases hframe with ⟨_, _, _, _, rfl, _⟩
          exact hrole
        · rcases hframe with ⟨_, _, _, _, rfl, _⟩
          exact hp
  exact hinv.right

theorem bcastHeartbeat_acts (h : n.bcastHeartbeat = .ok n') (hrole : n.role = .leader) :
    Acts scope n n' := by
  unfold bcastHeartbeat at h
  dsimp only at h
  split at h
  · have hsent : Acts scope _ n' := bcastAppend_acts h hrole
    exact hsent.head (Act.reads (Or.inr (Or.inl rfl)))
  · exact bcastAppend_acts h hrole

theorem startRounds_acts {fuel : Nat} {n : Node} (h : startRounds fuel n = .ok n')
    (hrole : n.role = .leader) : Acts scope n n' := by
  induction fuel generalizing n with
  | zero =>
      cases h
      exact ReflTransGen.refl
  | succ fuel ih =>
      rw [startRounds] at h
      split at h
      · cases h
        exact ReflTransGen.refl
      · dsimp only at h
        split at h
        · have hrest := ih h hrole
          exact hrest.head (Act.reads (Or.inl rfl))
        · split at h
          · have hrest := ih h hrole
            exact hrest.head (Act.reads (Or.inl rfl))
          · have hsent : Acts scope _ n' := bcastHeartbeat_acts h hrole
            exact hsent.head (Act.reads (Or.inr (Or.inl rfl)))

theorem confirmReadRound_acts (h : n.confirmReadRound = .ok n') (hrole : n.role = .leader) :
    Acts scope n n' := by
  have hrest : Acts scope n.closeRound n' := startRounds_acts h hrole
  exact hrest.head (Act.reads (Or.inl rfl))

theorem readIndex_acts {id : Nat} {r : Bool × Node} (h : n.readIndex id = .ok r) :
    Acts scope n r.2 := by
  unfold readIndex at h
  split at h
  · cases h
    exact ReflTransGen.refl
  · next hrole =>
      split at h
      · cases h
        exact ReflTransGen.refl
      · rcases bind_eq_ok.mp h with ⟨started, hstarted, hpure⟩
        cases hpure
        have hrest : Acts scope _ started := startRounds_acts hstarted (not_not.mp hrole)
        exact hrest.head (Act.reads (Or.inr (Or.inr ⟨rfl, rfl⟩)))

theorem transferLeader_acts {target : Nat} {r : Bool × Node}
    (h : n.transferLeader target = .ok r) : Acts scope n r.2 := by
  unfold transferLeader at h
  split at h
  · cases h
    exact ReflTransGen.refl
  · next hguard =>
      rw [not_or, not_or, not_not, not_not] at hguard
      have hset : Act scope n { n with transferee := target } := Act.aside rfl rfl rfl
      dsimp only at h
      split at h
      · cases h
        exact (ReflTransGen.single (Act.say (by simp) (by simp) (by simp) (by simp))).head hset
      · rcases bind_eq_ok.mp h with ⟨sent, hsent, hpure⟩
        cases hpure
        refine (ReflTransGen.single (Act.replicate ?_ ?_ ?_ hsent)).head hset
        · exact hguard.left
        · exact List.mem_append_left _ hguard.right.right
        · exact hguard.right.left

/-!
## Elections
-/

theorem becomeFollower_acts {term lead : Nat} (h : n.becomeFollower term lead = .ok n') :
    Acts scope n n' := by
  rcases bind_eq_ok.mp h with ⟨moved, hmoved, hpure⟩
  cases hpure
  unfold reset at hmoved
  split at hmoved
  · cases hmoved
  · cases hmoved
    rcases resetElectionTimer_fields
      { (if n.term < term then { n with term := term, vote := 0 } else n) with
        lead := 0
        votes := ∅
        preVotes := ∅ } with ⟨_, _, _, htimer⟩
    rw [htimer]
    apply ReflTransGen.single
    split
    · next hlt => exact Act.follow rfl (Nat.le_of_lt hlt) ⟨rfl, rfl, rfl, rfl, rfl⟩
    · exact Act.follow rfl (Nat.le_refl _) ⟨rfl, rfl, rfl, rfl, rfl⟩

theorem becomeLeader_acts (h : n.becomeLeader = .ok n') : Acts scope n n' := by
  rw [becomeLeader] at h
  split at h
  · cases h
  · next hrole =>
      rcases bind_eq_ok.mp h with ⟨log, hlog, h⟩
      rcases bind_eq_ok.mp h with ⟨r, hr, hbeat⟩
      have hleads : r.2.role = .leader := by
        rcases maybeCommit_replicates hr with ⟨_, _, _, _, hr2, _⟩
        rw [hr2]
      have hlead : Act scope n _ := Act.lead (not_not.mp hrole)
      have happend : Act scope _ _ := Act.append rfl hlog
      exact (((ReflTransGen.single hlead).tail happend).tail (Act.commit hr)).trans
        (bcastHeartbeat_acts hbeat hleads)

theorem startElection_acts (h : n.startElection = .ok n') (hrole : n.role ≠ .leader)
    (hstands : n.Eligible) : Acts scope n n' := by
  rcases becomeCandidate_ok hrole with ⟨stood, hstood, hcore⟩
  have hstand : Act scope n stood := by
    refine Act.stand hrole hstands (congrArg Core.role hcore) ?_ ?_ ?_
    · rw [show stood.votes = {n.id} from congrArg Core.votes hcore]
      exact Finset.singleton_ne_empty _
    · rw [show stood.term = n.term + 1 from congrArg Core.term hcore]
      exact Nat.lt_succ_self _
    · exact ⟨congrArg Core.id hcore, congrArg Core.voters hcore, congrArg Core.learners hcore,
        congrArg Core.msgs hcore, congrArg Core.matchIndex hcore⟩
  rw [startElection, hstood] at h
  change (if stood.quorum ≤ stood.votes.card then stood.becomeLeader
    else stood.bcastVote .vote stood.term) = .ok n' at h
  split at h
  · exact (becomeLeader_acts h).head hstand
  · refine ReflTransGen.head hstand ?_
    unfold bcastVote at h
    refine foldlM_invariant (P := Acts scope stood) ?_ ReflTransGen.refl h
    intro a p b _ ha hb
    split at hb
    · cases hb
      exact ha
    · rcases bind_eq_ok.mp hb with ⟨lastTerm, _, hpure⟩
      cases hpure
      exact ha.tail (Act.say (by simp) (by simp) (by simp) (by simp))

/-!
## Handlers
-/

theorem handleApp_acts (h : n.handleApp m = .ok n') : Acts scope n n' := by
  rcases bind_eq_ok.mp h with ⟨⟨accepted, log⟩, _, h⟩
  have hfollow : Act scope n
      { (resetElectionTimer { n with role := .follower, lead := m.fromId }) with
        log := log } := by
    rcases resetElectionTimer_fields { n with role := .follower, lead := m.fromId } with
      ⟨_, _, _, htimer⟩
    rw [htimer]
    exact Act.follow rfl (Nat.le_refl _) ⟨rfl, rfl, rfl, rfl, rfl⟩
  cases accepted with
  | none | some lastNew =>
      cases h
      exact (ReflTransGen.single hfollow).tail
        (Act.say (by simp) (by simp) (by simp) (by simp))

theorem countReadAck_acts {sender : Nat} (h : n.countReadAck sender = .ok n')
    (hrole : n.role = .leader) : Acts { acker := some sender } n n' := by
  have hcount : Act { acker := some sender } n { n with readAcks := insert sender n.readAcks } :=
    Act.count rfl hrole
  unfold countReadAck at h
  split at h
  · dsimp only at h
    split at h
    · exact (confirmReadRound_acts h hrole).head hcount
    · cases h
      exact ReflTransGen.single hcount
  · cases h
    exact ReflTransGen.refl

theorem advanceMatch_acts (h : n.advanceMatch m = .ok n') (hrole : n.role = .leader)
    (hreject : m.reject = false) : Acts scope (n.recorded m) n' := by
  unfold advanceMatch at h
  unfold recorded
  rw [hreject, if_neg (by decide)]
  split at h
  · next hlt =>
      rw [if_pos hlt]
      rcases bind_eq_ok.mp h with ⟨⟨committed, last⟩, hr, hrest⟩
      have hcommit : Act scope _ last := Act.commit hr
      have hleads : last.role = .leader := by
        rcases maybeCommit_replicates hr with ⟨_, _, _, _, hlast, _⟩
        dsimp only at hlast
        rw [hlast]
        exact hrole
      dsimp only at hrest
      split at hrest
      · exact (bcastAppend_acts hrest hleads).head hcommit
      · cases hrest
        exact ReflTransGen.single hcommit
  · next hlt =>
      rw [if_neg hlt]
      cases h
      exact ReflTransGen.refl

theorem handleAppResp_acts (h : n.handleAppResp m = .ok n') :
    n' = n ∨ (n.role = .leader ∧
      ((m.reject = true ∧ (n.recorded m).sendAppend m.fromId = .ok n') ∨
        (m.reject = false ∧ Acts { acker := some m.fromId } (n.recorded m) n'))) := by
  unfold handleAppResp at h
  split at h
  · cases h
    exact Or.inl rfl
  · next hrole =>
      have hrole : n.role = .leader := not_not.mp hrole
      split at h
      · next hreject =>
          refine Or.inr ⟨hrole, Or.inl ⟨hreject, ?_⟩⟩
          unfold recorded
          rw [if_pos hreject]
          exact h
      · next hreject =>
          have hreject : m.reject = false := by simpa using hreject
          split at h
          · refine Or.inr ⟨hrole, Or.inr ⟨hreject, ?_⟩⟩
            rcases bind_eq_ok.mp h with ⟨advanced, hadvanced, h⟩
            rcases bind_eq_ok.mp h with ⟨counted, hcounted, h⟩
            have hfirst : Acts { acker := some m.fromId } (n.recorded m) advanced :=
              advanceMatch_acts hadvanced hrole hreject
            have hleads : advanced.role = .leader := by
              rcases advanceMatch_replicates hadvanced with ⟨_, _, _, _, hlast, _⟩
              rw [hlast]
              exact hrole
            have hrenew : Act { acker := some m.fromId } advanced (advanced.renewLeaseAck m.fromId) :=
              Act.renew rfl hleads
            have hstill : (advanced.renewLeaseAck m.fromId).role = .leader :=
              (congrArg Core.role (core_renewLeaseAck advanced m.fromId)).trans hleads
            have hacts := (hfirst.tail hrenew).trans (countReadAck_acts hcounted hstill)
            split at h
            · cases h
              exact hacts.tail (Act.say (by simp) (by simp) (by simp) (by simp))
            · cases h
              exact hacts
          · cases h
            exact Or.inl rfl

theorem handleVote_acts (h : n.handleVote m = .ok n') : Acts scope n n' := by
  have hanswer : forall grant : Bool, Acts scope n (Node.send
      (if grant then { n with vote := m.fromId }.resetElectionTimer else n)
      { type := .voteResp, toId := m.fromId, reject := !grant }) := by
    intro grant
    refine ReflTransGen.tail ?_ (Act.say (by simp) (by simp) (by simp) (by simp))
    split
    · exact (Acts.timer { n with vote := m.fromId }).head Act.pledge
    · exact ReflTransGen.refl
  unfold handleVote at h
  split at h
  · rcases bind_eq_ok.mp h with ⟨grant, _, hpure⟩
    cases hpure
    exact hanswer grant
  · cases h
    exact hanswer false

theorem handleVoteResp_acts (h : n.handleVoteResp m = .ok n') : Acts scope n n' := by
  unfold handleVoteResp at h
  split at h
  · cases h
    exact ReflTransGen.refl
  · next hrole =>
      have hrole : n.role = .candidate := not_not.mp hrole
      have htally : forall counted : Node, Acts scope n counted ->
          (if counted.quorum ≤ counted.votes.card then counted.becomeLeader
            else pure counted) = .ok n' -> Acts scope n n' := by
        intro counted hcounted h
        split at h
        · exact hcounted.trans (becomeLeader_acts h)
        · cases h
          exact hcounted
      dsimp only at h
      split at h
      · refine htally { n with votes := insert m.fromId n.votes } (ReflTransGen.single ?_) h
        exact Act.elect hrole (Finset.insert_ne_empty _ _)
      · exact htally n ReflTransGen.refl h

theorem handlePropose_acts {r : Option ProposeError × Node} (h : n.handlePropose m = .ok r) :
    Acts scope n r.2 := by
  unfold handlePropose at h
  split at h
  · cases h
    exact ReflTransGen.refl
  · next hrole =>
      have hrole : n.role = .leader := not_not.mp hrole
      split at h
      · cases h
        exact ReflTransGen.refl
      · rcases bind_eq_ok.mp h with ⟨log, hlog, h⟩
        rcases bind_eq_ok.mp h with ⟨committed, hcommitted, h⟩
        rcases bind_eq_ok.mp h with ⟨sent, hsent, hpure⟩
        cases hpure
        have hleads : committed.2.role = .leader := by
          rcases maybeCommit_replicates hcommitted with ⟨_, _, _, _, hlast, _⟩
          rw [hlast]
          exact hrole
        have happend : Act scope n _ := Act.append hrole hlog
        exact ((ReflTransGen.single happend).tail (Act.commit hcommitted)).trans
          (bcastAppend_acts hsent hleads)

theorem proposeConfChange_acts {cc : ConfChange} {r : Option ProposeError × Node}
    (h : n.proposeConfChange cc = .ok r) : Acts scope n r.2 := by
  unfold proposeConfChange at h
  split at h
  · cases h
    exact ReflTransGen.refl
  · next hrole =>
      have hrole : n.role = .leader := not_not.mp hrole
      split at h
      · cases h
        exact ReflTransGen.refl
      · rcases bind_eq_ok.mp h with ⟨log, hlog, h⟩
        rcases bind_eq_ok.mp h with ⟨committed, hcommitted, h⟩
        rcases bind_eq_ok.mp h with ⟨sent, hsent, hpure⟩
        cases hpure
        have hleads : committed.2.role = .leader := by
          rcases maybeCommit_replicates hcommitted with ⟨_, _, _, _, hlast, _⟩
          rw [hlast]
          exact hrole
        have happend : Act scope n { n with log := log } := Act.append hrole hlog
        have hmark : Act scope { n with log := log }
            { n with log := log, pendingConfIndex := n.log.lastIndex + 1 } :=
          Act.aside rfl rfl rfl
        exact (((ReflTransGen.single happend).tail hmark).tail (Act.commit hcommitted)).trans
          (bcastAppend_acts hsent hleads)

theorem step_acts {r : Option ProposeError × Node} (h : n.step m = .ok r)
    (hprobe : m.type ≠ .preVote) (hanswer : m.type ≠ .preVoteResp) :
    (forall scope, Acts scope n r.2) ∨
      (m.type = .appResp ∧ m.term = n.term ∧ n.handleAppResp m = .ok r.2) := by
  have hdispatch : forall {k last : Node}, k.dispatch m = .ok last ->
      (forall scope, Acts scope k last) ∨
        (m.type = .appResp ∧ k.handleAppResp m = .ok last) := by
    intro k last h
    unfold dispatch at h
    split at h
    · exact Or.inl fun _ => handleVote_acts h
    · exact Or.inl fun _ => handleVoteResp_acts h
    · exact Or.inl fun _ => handleApp_acts h
    · next htype => exact Or.inr ⟨htype, h⟩
    · split at h
      · next hvoter =>
          by_cases hrole : k.role = .leader
          · rw [startElection, becomeCandidate, if_pos hrole] at h
            cases h
          · exact Or.inl fun _ => startElection_acts h hrole (Or.inr hvoter)
      · cases h
        exact Or.inl fun _ => ReflTransGen.refl
    all_goals
      cases h
      exact Or.inl fun _ => ReflTransGen.refl
  unfold step at h
  split at h
  · exact Or.inl fun _ => handlePropose_acts h
  · next htype => exact absurd htype hprobe
  · next htype => exact absurd htype hanswer
  · split at h
    · split at h
      · cases h
        exact Or.inl fun _ => ReflTransGen.single
          (Act.say (by simp) (by simp) (by simp) (by simp))
      · cases h
        exact Or.inl fun _ => ReflTransGen.refl
    · next hge =>
        split at h
        · rcases bind_eq_ok.mp h with ⟨moved, hmoved, h⟩
          rcases bind_eq_ok.mp h with ⟨last, hlast, hpure⟩
          cases hpure
          refine Or.inl fun scope => (becomeFollower_acts hmoved).trans ?_
          rcases hdispatch hlast with hacts | ⟨_, hhandled⟩
          · exact hacts scope
          · -- A node that has just stepped down ignores the answer.
            rcases bind_eq_ok.mp hmoved with ⟨k, _, hpure⟩
            cases hpure
            cases hhandled
            exact ReflTransGen.refl
        · next hle =>
            rcases bind_eq_ok.mp h with ⟨moved, hmoved, h⟩
            rcases bind_eq_ok.mp h with ⟨last, hlast, hpure⟩
            cases hmoved
            cases hpure
            rcases hdispatch hlast with hacts | ⟨htype, hhandled⟩
            · exact Or.inl hacts
            · exact Or.inr ⟨htype, by lia, hhandled⟩

/-!
## Campaigns
-/

theorem campaign_acts (h : n.campaign = .ok n') (hrole : n.role ≠ .leader)
    (hprobes : scope.probes = true) : Acts scope n n' := by
  unfold campaign at h
  split at h
  · cases h
    exact ReflTransGen.refl
  · next hvoter =>
      rcases becomePreCandidate_ok hrole with ⟨opened, hopened, hcore, _⟩
      have hcandidate : opened.role = .candidate := congrArg Core.role hcore
      rw [hopened] at h
      change (if opened.quorum ≤ opened.preVotes.card then opened.startElection
        else opened.bcastVote .preVote (opened.term + 1)) = .ok n' at h
      refine ReflTransGen.head
        (Act.preCampaign hprobes hrole (Or.inr (not_not.mp hvoter)) hcore) ?_
      split at h
      · exact startElection_acts h (by simp [hcandidate]) (Or.inl hcandidate)
      · unfold bcastVote at h
        refine foldlM_invariant (P := Acts scope opened) ?_ ReflTransGen.refl h
        intro a p b _ ha hb
        split at hb
        · cases hb
          exact ha
        · rcases bind_eq_ok.mp hb with ⟨lastTerm, _, hpure⟩
          cases hpure
          exact ha.tail (Act.probe hprobes (Or.inl rfl))

theorem handlePreVote_sends (h : n.handlePreVote m = .ok n') :
    exists answer : Message, answer.type = .preVoteResp ∧ n' = n.send answer := by
  unfold handlePreVote at h
  split at h
  · rcases bind_eq_ok.mp h with ⟨upToDate, _, hpure⟩
    cases hpure
    exact ⟨_, rfl, rfl⟩
  · cases h
    exact ⟨_, rfl, rfl⟩

theorem handlePreVote_acts (h : n.handlePreVote m = .ok n') (hprobes : scope.probes = true) :
    Acts scope n n' := by
  rcases handlePreVote_sends h with ⟨answer, htype, rfl⟩
  exact ReflTransGen.single (Act.probe hprobes (Or.inr htype))

theorem handlePreVoteResp_acts (h : n.handlePreVoteResp m = .ok n')
    (hprobes : scope.probes = true) : Acts scope n n' := by
  unfold handlePreVoteResp at h
  split at h
  · cases h
    exact ReflTransGen.refl
  · next hguard =>
      rw [not_or, not_not, not_not] at hguard
      have hcount : forall k : Node, Acts scope n k -> k.role = .candidate ->
          (if k.quorum ≤ k.preVotes.card then k.startElection else pure k) = .ok n' ->
          Acts scope n n' := by
        intro k hk hrole h
        split at h
        · exact hk.trans (startElection_acts h (by simp [hrole]) (Or.inl hrole))
        · cases h
          exact hk
      dsimp only at h
      split at h
      · exact hcount { n with preVotes := insert m.fromId n.preVotes }
          (ReflTransGen.single (Act.tally hprobes hguard.left)) hguard.left h
      · exact hcount n ReflTransGen.refl hguard.left h

def TimesOut (n : Node) : Prop :=
  n.role ≠ .leader ∧ n.randomTimeout ≤ n.electionElapsed + 1

instance (n : Node) : Decidable n.TimesOut :=
  inferInstanceAs (Decidable (_ ∧ _))

theorem tick_of_timesOut (h : n.TimesOut) :
    n.tick = campaign { n with electionElapsed := n.electionElapsed + 1 } := by
  unfold tick
  rw [if_neg h.left]
  dsimp only
  rw [if_pos h.right]

theorem tick_acts (h : n.tick = .ok n') (htime : ¬ n.TimesOut) : Acts scope n n' := by
  unfold tick at h
  split at h
  · next hrole =>
      dsimp only at h
      split at h
      · have hbeat : Acts scope _ n' := bcastHeartbeat_acts h hrole
        refine ReflTransGen.head ?_ hbeat
        exact Act.aside rfl rfl rfl
      · cases h
        exact ReflTransGen.single (Act.aside rfl rfl rfl)
  · next hrole =>
      dsimp only at h
      split at h
      · next hlate => exact absurd ⟨hrole, hlate⟩ htime
      · cases h
        exact ReflTransGen.single (Act.aside rfl rfl rfl)

/-!
## Batches
-/

theorem advanceStable_acts {es : List Entry} (h : n.advanceStable es = .ok n') :
    Acts scope n n' ∧ n'.role = n.role := by
  unfold advanceStable at h
  split at h
  · cases h
    exact ⟨ReflTransGen.refl, rfl⟩
  · rcases bind_eq_ok.mp h with ⟨r, hr, hpure⟩
    cases hpure
    have hcommit : Act scope _ r.2 := Act.commit hr
    refine ⟨(ReflTransGen.single hcommit).head (Act.settle rfl (Nat.le_refl _)), ?_⟩
    rcases maybeCommit_fields hr with ⟨_, _, hsame, _⟩
    rw [hsame]

theorem advance_acts {rd : Ready} (h : n.advance rd = .ok n') :
    exists stable, Acts scope n stable ∧ stable.role = n.role ∧
      Acts scope (rd.committedEntries.foldl applyConfEntry stable) n' := by
  rcases bind_eq_ok.mp h with ⟨stable, hstable, h⟩
  rcases bind_eq_ok.mp h with ⟨applied, happlied, hpure⟩
  cases hpure
  rcases advanceStable_acts hstable with ⟨hacts, hrole⟩
  refine ⟨stable, hacts.head (Act.settle rfl (Nat.le_refl _)), hrole, ?_⟩
  have hserved : Act scope applied (applied.dropServed rd.readStates) :=
    Act.reads (Or.inr (Or.inr ⟨rfl, rfl⟩))
  refine ReflTransGen.tail ?_ hserved
  unfold advanceApplied at happlied
  split at happlied
  · next hnone =>
      cases happlied
      rw [List.getLast?_eq_none_iff.mp hnone]
      exact ReflTransGen.refl
  · rcases bind_eq_ok.mp happlied with ⟨log, hlog, hpure⟩
    cases hpure
    rcases RaftLog.appliedTo_entries hlog with ⟨hentries, hsnap, _⟩
    refine ReflTransGen.single (Act.settle ?_ (Nat.le_of_eq hsnap.symm))
    rw [RaftLog.lastIndex_eq, RaftLog.lastIndex_eq, hentries, hsnap]

theorem compactTo_acts {index : Nat} (h : n.compactTo index = .ok n') : Acts scope n n' := by
  rcases bind_eq_ok.mp h with ⟨log, hlog, hpure⟩
  cases hpure
  rcases RaftLog.compactTo_entries hlog with rfl | ⟨hlt, happlied, _, hsnap, _, hentries⟩
  · exact ReflTransGen.refl
  · have hle := n.log.applied_le
    have hlast := n.log.committed_le_lastIndex
    rw [RaftLog.lastIndex_eq] at hlast
    refine ReflTransGen.single (Act.settle ?_ (by lia))
    rw [RaftLog.lastIndex_eq, RaftLog.lastIndex_eq, hentries, hsnap, List.length_drop]
    lia

end Node
end Raft
end Basalt
