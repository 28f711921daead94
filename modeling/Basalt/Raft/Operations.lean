import Basalt.Lib.Quorum
import Basalt.Raft.Machine

/-!
# The operations take the atomic transitions

One lemma per operation of `Raft.Node`: its outcome, in terms of the
transitions of `Raft.Machine`.  The proofs follow the control flow of the
operations; later modules never unfold them again.
-/

namespace Basalt
namespace Raft
namespace Node

open Lib Relation

variable {inp : Input} {n : Node}

def frame (n : Node) : Nat × List Nat × List Nat × Role × Nat :=
  (n.id, n.voters, n.learners, n.role, n.term)

def Keeps (n n' : Node) : Prop :=
  n'.frame = n.frame

namespace Keeps

variable {n' n'' : Node}

theorem refl (n : Node) : Keeps n n :=
  rfl

theorem trans (h : Keeps n n') (h' : Keeps n' n'') : Keeps n n'' :=
  Eq.trans h' h

theorem role (h : Keeps n n') : n'.role = n.role :=
  congrArg (fun f => f.2.2.2.1) h

theorem term (h : Keeps n n') : n'.term = n.term :=
  congrArg (fun f => f.2.2.2.2) h

theorem peers (h : Keeps n n') : n'.peers = n.peers :=
  congrArg (fun f => f.2.1 ++ f.2.2.1) h

theorem of_core (h : n'.core = n.core) : Keeps n n' :=
  congrArg (fun c : Core => (c.id, c.voters, c.learners, c.role, c.term)) h

end Keeps

/-!
## Operations outside the core
-/

theorem intn_fields (n : Node) (hi : Nat) :
    exists calls seq, (n.intn hi).2 = { n with randCalls := calls, randSeq := seq } := by
  unfold intn
  generalize splitmix n.randSeq = r
  by_cases h : hi = 0
  · simp only [h, if_true]
    exact ⟨n.randCalls, n.randSeq, rfl⟩
  · simp only [h, if_false]
    cases n.rand with
    | none => exact ⟨n.randCalls, _, rfl⟩
    | some rand => exact ⟨_, n.randSeq, rfl⟩

theorem resetElectionTimer_fields (n : Node) :
    exists calls seq timeout, n.resetElectionTimer =
      { n with
        electionElapsed := 0
        randCalls := calls
        randSeq := seq
        randomTimeout := timeout } := by
  rcases intn_fields { n with electionElapsed := 0 } n.electionTick with ⟨calls, seq, h⟩
  unfold resetElectionTimer
  dsimp only
  generalize intn { n with electionElapsed := 0 } n.electionTick = r at h ⊢
  rw [h]
  exact ⟨calls, seq, _, rfl⟩

@[simp]
theorem core_resetElectionTimer (n : Node) :
    n.resetElectionTimer.core = n.core := by
  rcases resetElectionTimer_fields n with ⟨_, _, _, h⟩
  rw [h]
  rfl

@[simp]
theorem preVotes_resetElectionTimer (n : Node) :
    n.resetElectionTimer.preVotes = n.preVotes := by
  rcases resetElectionTimer_fields n with ⟨_, _, _, h⟩
  rw [h]

@[simp]
theorem core_renewLeaseAck (n : Node) (sender : Nat) :
    (n.renewLeaseAck sender).core = n.core := by
  rw [renewLeaseAck]
  split
  · rfl
  · rfl

theorem roundActive_iff : n.roundActive = true <-> n.roundReads ≠ [] := by
  rw [roundActive, decide_eq_true_iff]

theorem stamp_type (c : Core) (m : Message) : (c.stamp m).type = m.type := by
  rw [Core.stamp]
  split
  · rfl
  · rfl

theorem stamp_reject (c : Core) (m : Message) :
    (c.stamp m).reject = m.reject := by
  rw [Core.stamp]
  split
  · rfl
  · rfl

theorem stamp_fromId (c : Core) (m : Message) : (c.stamp m).fromId = c.id := by
  rw [Core.stamp]
  split
  · rfl
  · rfl

theorem stamp_isNotice {c : Core} {m : Message} (h : m.IsNotice) :
    (c.stamp m).IsNotice := by
  rw [Message.IsNotice, stamp_type, stamp_reject]
  exact h

theorem moves_notice {m : Message} (h : m.IsNotice) :
    Moves inp n.core (n.send m).core := by
  have hmove : Move inp n.core
      { n.core with msgs := n.core.msgs ++ [n.core.stamp m] } := by
    apply Move.notice
    intro m' hm'
    rw [List.mem_singleton.mp hm']
    exact ⟨stamp_isNotice h, stamp_fromId _ _⟩
  exact ReflTransGen.single hmove

/-!
## Replication
-/

theorem sendAppend_effect {p : Nat} (hrole : n.role = .leader)
    (hp : n.core.SendsTo inp p)
    (hpeer : p ∈ n.peers ∨
      exists m, inp.message = some m ∧ m.type = .appResp ∧ m.fromId = p) :
    Effect inp n.core (Keeps n) (n.sendAppend p) := by
  rw [sendAppend]
  cases hterm : n.log.term (prevIndexOf ((n.nextIndex p).getD 0)) with
  | none =>
      refine Outcome.done ((moves_notice ?_).tail (Move.setNext ?_))
        rfl
      · exact Or.inr (Or.inr (Or.inl rfl))
      · exact Nat.le_add_left 1 _
  | some prevTerm =>
      rcases Nat.eq_zero_or_pos ((n.nextIndex p).getD 0) with hzero | hpos
      · have hstuck : Stuck inp n.core := by
          refine Stuck.noProgress hrole hpeer ?_
          intro x hx
          change n.nextIndex p = some x at hx
          rw [hx] at hzero
          exact hzero
        cases hslice : n.log.slice ((n.nextIndex p).getD 0)
            (n.log.lastIndex + 1) with
        | ok ents =>
            rw [hzero] at hslice
            exact absurd hslice RaftLog.not_slice_zero
        | error e => exact Outcome.fail hstuck
      · have hprev : prevIndexOf ((n.nextIndex p).getD 0) =
            (n.nextIndex p).getD 0 - 1 :=
          if_neg (Nat.pos_iff_ne_zero.mp hpos)
        rw [hprev] at hterm ⊢
        rcases RaftLog.slice_ok_of_term hpos hterm with ⟨ents, hents⟩
        simp only [hents]
        exact Outcome.done
          (ReflTransGen.single (Move.sendApp hrole hp hpos hterm hents))
          rfl

theorem bcastAppend_effect (hrole : n.role = .leader) :
    Effect inp n.core (Keeps n) n.bcastAppend := by
  rw [bcastAppend]
  apply Outcome.foldlM Node.core _ (Keeps.refl n)
  intro n' p hp hn'
  split
  · exact Outcome.done ReflTransGen.refl hn'
  · next hne =>
      refine (sendAppend_effect (hn'.role.trans hrole) (Or.inl hne) ?_).mono ?_
      · exact Or.inl (by rw [hn'.peers]; exact hp)
      · exact fun a ha => hn'.trans ha

theorem bcastHeartbeat_effect (hrole : n.role = .leader) :
    Effect inp n.core (Keeps n) n.bcastHeartbeat := by
  rw [bcastHeartbeat]
  by_cases hactive : n.roundActive
  · simp only [hactive, if_true]
    refine Outcome.after (ReflTransGen.single (Move.rearm hrole ?_))
      (bcastAppend_effect (n := { n with readAcks := {n.id} }) hrole)
    exact roundActive_iff.mp hactive
  · simp only [hactive]
    exact bcastAppend_effect hrole

theorem maybeCommit_effect :
    EffectOf inp n.core (fun r => Keeps n r.2) n.maybeCommit := by
  rw [maybeCommit]
  split
  · exact Outcome.done ReflTransGen.refl (Keeps.refl n)
  · next hrole =>
      have hrole : n.role = .leader := not_not.mp hrole
      let n' : Node :=
        { n with
          matchIndex := Function.update n.matchIndex n.id
            (min n.stabled n.log.lastIndex) }
      have hown : Moves inp n.core n'.core :=
        ReflTransGen.single (Move.ownMatch hrole)
      have hkeep : Keeps n n' := rfl
      dsimp only
      split
      · next hnone =>
          refine Outcome.after hown (Outcome.fail (Stuck.noVoters ?_))
          rw [List.getElem?_eq_none_iff, List.length_insertionSort,
            List.length_map] at hnone
          change n.voters = []
          apply List.eq_nil_of_length_eq_zero
          change n.voters.length ≤ n.voters.length / 2 + 1 - 1 at hnone
          lia
      · next candidate hsome =>
          split
          · exact Outcome.done hown hkeep
          · split
            · exact Outcome.done hown hkeep
            · next hle hterm =>
                have hterm : n.log.term candidate = some n.term :=
                  not_not.mp hterm
                have hcount : n'.core.quorum ≤
                    n'.voters.countP (fun p => candidate ≤ n'.matchIndex p) := by
                  have hlt := lt_countP_of_sort hsome
                  rw [List.countP_map] at hlt
                  exact hlt
                rcases RaftLog.commitTo_ok (RaftLog.term_bounds hterm).right
                  with ⟨log, hlog⟩
                simp only [hlog]
                exact Outcome.done
                  (hown.tail (Move.commit hrole hcount hterm hlog))
                  rfl

theorem appends_noop :
    n.core.Appends inp [{ index := n.log.lastIndex + 1, term := n.term }] := by
  intro i e he
  rcases List.getElem?_eq_some_iff.mp he with ⟨hi, rfl⟩
  have hzero : i = 0 := by simpa using hi
  subst hzero
  exact ⟨rfl, rfl, rfl, Or.inl rfl⟩

theorem append_ok_of_appends {c : Core} {es : List Entry}
    (h : c.Appends inp es) : exists log, c.log.append es = .ok log := by
  apply RaftLog.append_ok
  intro e he
  simpa using (h 0 e he).left

theorem appendCommit_effect {es : List Entry} (hrole : n.role = .leader)
    (hes : n.core.Appends inp es) {β : Type} {view : β -> Core}
    {post : β -> Prop} {f : Bool × Node -> Except Panic β}
    (hf : forall r : Bool × Node, Keeps n r.2 ->
      Outcome (Move inp) (Stuck inp) r.2.core view post (f r)) :
    Outcome (Move inp) (Stuck inp) n.core view post (do
      let log <- n.log.append es
      let r <- { n with log := log }.maybeCommit
      f r) := by
  rcases append_ok_of_appends hes with ⟨log, hlog⟩
  change n.log.append es = .ok log at hlog
  rw [hlog]
  refine Outcome.after
    (ReflTransGen.single (Move.append hrole hes hlog)) ?_
  change Outcome (Move inp) (Stuck inp) _ view post
    ({ n with log := log }.maybeCommit >>= f)
  refine Outcome.bind (maybeCommit_effect (n := { n with log := log })) ?_
  exact hf

theorem becomeLeader_effect (hrole : n.role = .candidate)
    (hquorum : n.quorum ≤ n.votes.card) :
    Effect inp n.core (fun _ => True) n.becomeLeader := by
  rw [becomeLeader, if_neg (not_not.mpr hrole)]
  refine Outcome.after (ReflTransGen.single (Move.lead (c := n.core) hrole hquorum)) ?_
  refine appendCommit_effect (n := { n with
    role := .leader
    lead := n.id
    transferee := 0
    heartbeatElapse := 0
    leaseElapsed := 0
    leaseAcks := none
    roundReads := []
    pendingReads := []
    readAcks := ∅
    nextIndex := fun p =>
      if p ∈ n.peers then some (n.log.lastIndex + 1) else none
    matchIndex := fun _ => 0 }) rfl appends_noop ?_
  intro r hr
  exact (bcastHeartbeat_effect hr.role).mono fun _ _ => trivial

theorem transferLeader_effect (target : Nat) :
    EffectOf inp n.core (fun _ => True) (n.transferLeader target) := by
  rw [transferLeader]
  split
  · exact Outcome.done ReflTransGen.refl trivial
  · next hguard =>
      have hrole : n.role = .leader := by
        by_contra h
        exact hguard (Or.inl h)
      have hne : n.core.SendsTo inp target :=
        Or.inl fun h => hguard (Or.inr (Or.inl h))
      have hmem : target ∈ n.voters := by
        by_contra h
        exact hguard (Or.inr (Or.inr h))
      dsimp only
      split
      · exact Outcome.done
          (ReflTransGen.single (Move.timeoutNow hrole hne)) trivial
      · refine Outcome.bind
          (sendAppend_effect (n := { n with transferee := target }) hrole hne
            (Or.inl (List.mem_append_left _ hmem))) ?_
        intro n' _
        exact Outcome.done ReflTransGen.refl trivial

/-!
## Elections
-/

theorem reset_ok {term : Nat} (h : n.term < term) :
    exists n', n.reset term = .ok n' ∧
      n'.core = { n.core with term := term, vote := 0, votes := ∅ } := by
  rw [reset, if_neg (by lia)]
  simp only [h, if_true]
  refine ⟨_, rfl, ?_⟩
  rw [core_resetElectionTimer]
  rfl

theorem bcastVote_eq (t : MessageType) (term : Nat) {lastTerm : Nat}
    (hlast : n.log.lastTerm = .ok lastTerm) :
    n.bcastVote t term = .ok { n with
      msgs := n.msgs ++ (n.peers.filter fun p => p ≠ n.id).map fun p =>
        n.core.stamp
          { type := t
            toId := p
            term := term
            logIndex := n.log.lastIndex
            logTerm := lastTerm } } := by
  rw [bcastVote]
  generalize n.peers = ps
  induction ps generalizing n with
  | nil => simp [pure, Except.pure]
  | cons p ps ih =>
      rw [List.foldlM_cons]
      by_cases hp : p = n.id
      · rw [List.filter_cons_of_neg (by simpa using hp)]
        simp only [hp, if_true]
        exact ih hlast
      · let sent : Node := n.send
          { type := t
            toId := p
            term := term
            logIndex := n.log.lastIndex
            logTerm := lastTerm }
        have hsend : (if p = n.id then pure n
            else do
              let lastTerm <- n.log.lastTerm
              pure (n.send
                { type := t
                  toId := p
                  term := term
                  logIndex := n.log.lastIndex
                  logTerm := lastTerm }) : Except Panic Node) = .ok sent := by
          rw [if_neg hp, hlast]
          rfl
        have hsent : sent.log.lastTerm = .ok lastTerm := hlast
        rw [hsend, List.filter_cons_of_pos (by simpa using hp), List.map_cons]
        refine Eq.trans (ih hsent) ?_
        show Except.ok { sent with msgs := n.msgs ++ [_] ++ _ } = _
        rw [List.append_assoc, List.singleton_append]
        rfl

theorem bcastVote_ok (t : MessageType) (term : Nat) :
    exists ms, n.bcastVote t term = .ok { n with msgs := n.msgs ++ ms } ∧
      forall m, m ∈ ms -> exists target lastTerm,
        target ≠ n.id ∧ n.log.lastTerm = .ok lastTerm ∧
          m = n.core.stamp
            { type := t
              toId := target
              term := term
              logIndex := n.log.lastIndex
              logTerm := lastTerm } := by
  rcases n.log.lastTerm_ok with ⟨lastTerm, hlast⟩
  refine ⟨_, bcastVote_eq t term hlast, ?_⟩
  intro m hm
  rcases List.mem_map.mp hm with ⟨p, hp, rfl⟩
  have hne : p ≠ n.id := by simpa using (List.mem_filter.mp hp).right
  exact ⟨p, lastTerm, hne, hlast, rfl⟩

theorem becomeCandidate_ok (hrole : n.role ≠ .leader) :
    exists n', n.becomeCandidate = .ok n' ∧
      n'.core =
        { n.core with
          term := n.term + 1
          role := .candidate
          vote := n.id
          votes := {n.id} } := by
  rw [becomeCandidate, if_neg hrole]
  rcases reset_ok (Nat.lt_succ_self n.term) with ⟨n', hreset, hcore⟩
  rw [hreset]
  refine ⟨_, rfl, ?_⟩
  have hid : n'.id = n.id := congrArg Core.id hcore
  change { n'.core with role := .candidate, vote := n'.id, votes := {n'.id} } = _
  rw [hcore, hid]

theorem startElection_effect (hrole : n.role ≠ .leader) :
    Effect inp n.core (fun _ => True) n.startElection := by
  rcases becomeCandidate_ok hrole with ⟨n', hcand, hcore⟩
  rw [startElection, hcand]
  change Effect inp n.core (fun _ => True)
    (if n'.quorum ≤ n'.votes.card then n'.becomeLeader
      else n'.bcastVote .vote n'.term)
  split
  · next hquorum =>
      have hmove : Moves inp n.core n'.core := by
        rw [hcore]
        have hmove : Move inp n.core
            { n.core with
              term := n.term + 1
              role := .candidate
              vote := n.id
              votes := {n.id}
              msgs := n.msgs ++ [] } := Move.campaign hrole (by simp)
        rw [List.append_nil] at hmove
        exact ReflTransGen.single hmove
      exact Outcome.after hmove
        (becomeLeader_effect (congrArg Core.role hcore) hquorum)
  · rcases bcastVote_ok (n := n') .vote n'.term with ⟨ms, hms, hall⟩
    rw [hms]
    refine Outcome.done ?_ trivial
    have hterm : n'.term = n.term + 1 := congrArg Core.term hcore
    have hid : n'.id = n.id := congrArg Core.id hcore
    have hlog : n'.log = n.log := congrArg Core.log hcore
    change Moves inp n.core { n'.core with msgs := n'.core.msgs ++ ms }
    rw [hcore]
    refine ReflTransGen.single (Move.campaign hrole ?_)
    intro m hm
    rcases hall m hm with ⟨target, lastTerm, htarget, hlast, rfl⟩
    rw [hid] at htarget
    rw [hlog] at hlast
    refine ⟨target, lastTerm, htarget, hlast, ?_⟩
    rw [hterm, hlog, hcore]
    simp only [Core.stamp, Core.voteRequest, Nat.add_one_ne_zero, if_false]
    rfl

theorem becomePreCandidate_ok (hrole : n.role ≠ .leader) :
    exists n', n.becomePreCandidate = .ok n' ∧
      n'.core = { n.core with role := .candidate } ∧ n'.preVotes = {n.id} := by
  rw [becomePreCandidate, if_neg hrole]
  refine ⟨_, rfl, ?_, ?_⟩
  · rw [core_resetElectionTimer]
    rfl
  · rw [preVotes_resetElectionTimer]

theorem campaign_effect (hrole : n.role ≠ .leader) :
    Effect inp n.core (fun _ => True) n.campaign := by
  rw [campaign]
  split
  · exact Outcome.done ReflTransGen.refl trivial
  · rcases becomePreCandidate_ok hrole with ⟨n', hpre, hcore, _⟩
    rw [hpre]
    have hmove : Moves inp n.core n'.core := by
      rw [hcore]
      exact ReflTransGen.single (Move.preCampaign hrole)
    have hrole' : n'.role = .candidate := congrArg Core.role hcore
    refine Outcome.after hmove ?_
    change Effect inp n'.core (fun _ => True)
      (if n'.quorum ≤ n'.preVotes.card then n'.startElection
        else n'.bcastVote .preVote (n'.term + 1))
    split
    · exact startElection_effect (by rw [hrole']; decide)
    · rcases bcastVote_ok (n := n') .preVote (n'.term + 1) with ⟨ms, hms, hall⟩
      rw [hms]
      refine Outcome.done (ReflTransGen.single (Move.notice ?_)) trivial
      intro m hm
      rcases hall m hm with ⟨target, lastTerm, _, _, rfl⟩
      exact ⟨stamp_isNotice (Or.inl rfl), stamp_fromId _ _⟩

theorem tick_effect : Effect inp n.core (fun _ => True) n.tick := by
  rw [tick]
  split
  · next hrole =>
      dsimp only
      split
      · exact (bcastHeartbeat_effect (n := { n with
          leaseElapsed := n.leaseElapsed + 1
          heartbeatElapse := 0 }) hrole).mono fun _ _ => trivial
      · exact Outcome.done ReflTransGen.refl trivial
  · next hrole =>
      dsimp only
      split
      · exact campaign_effect (n := { n with
          electionElapsed := n.electionElapsed + 1 }) hrole
      · exact Outcome.done ReflTransGen.refl trivial

/-!
## Reads
-/

theorem closeRound_moves (hrole : n.role = .leader)
    (h : n.useLease = true ∨ n.quorum ≤ n.readAcks.card) :
    Moves inp n.core n.closeRound.core :=
  ReflTransGen.single (Move.closeRound hrole h)

theorem startRounds_effect (fuel : Nat) (hrole : n.role = .leader) :
    Effect inp n.core (Keeps n) (startRounds fuel n) := by
  induction fuel generalizing n with
  | zero => exact Outcome.done ReflTransGen.refl (Keeps.refl n)
  | succ fuel ih =>
      rw [startRounds]
      split
      · exact Outcome.done ReflTransGen.refl (Keeps.refl n)
      · next hguard =>
          have hround : n.roundReads = [] := by
            by_contra h
            exact hguard (Or.inl (roundActive_iff.mpr h))
          have hpending : n.pendingReads ≠ [] :=
            fun h => hguard (Or.inr (Or.inl h))
          refine Outcome.after
            (ReflTransGen.single (Move.openRound hrole hround hpending)) ?_
          let n' : Node :=
            { n with
              roundReads := n.pendingReads
              pendingReads := []
              readAcks := {n.id} }
          have hclose : n'.useLease = true ∨ n'.quorum ≤ n'.readAcks.card ->
              Effect inp n'.core (Keeps n) (startRounds fuel n'.closeRound) := by
            intro h
            refine Outcome.after (closeRound_moves (n := n') hrole h) ?_
            exact (ih (n := n'.closeRound) hrole)
          dsimp only
          split
          · next hlease => exact hclose (Or.inl hlease.left)
          · split
            · next hquorum => exact hclose (Or.inr hquorum)
            · exact (bcastHeartbeat_effect (n := n') hrole)

theorem confirmReadRound_effect (hrole : n.role = .leader)
    (h : n.useLease = true ∨ n.quorum ≤ n.readAcks.card) :
    Effect inp n.core (Keeps n) n.confirmReadRound := by
  refine Outcome.after (closeRound_moves hrole h) ?_
  exact (startRounds_effect 2 (n := n.closeRound) hrole)

theorem readIndex_effect (inp : Input) (id : Nat) :
    n.readIndex id = .ok (false, n) ∨
      (n.role = .leader ∧ n.log.term n.log.committed = some n.term ∧
        EffectOf inp (n.core.queueRead id) (fun r => r.1 = true)
          (n.readIndex id)) := by
  rw [readIndex]
  split
  · exact Or.inl rfl
  · next hrole =>
      have hrole : n.role = .leader := not_not.mp hrole
      split
      · exact Or.inl rfl
      · next hterm =>
          refine Or.inr ⟨hrole, not_not.mp hterm, ?_⟩
          refine Outcome.bind (startRounds_effect 2 (n := { n with
            pendingReads :=
              n.pendingReads ++ [{ id := id, index := n.log.committed }] })
            hrole) ?_
          intro n' _
          exact Outcome.done ReflTransGen.refl rfl

/-!
## Acknowledgements and read rounds

Handling an acknowledgement counts its sender once, for the round that is in
flight when it arrives.
-/

section Rounds

variable {n' n'' : Node}

/-- Appends and snapshot notices are queued, and the progress and the log move.
Nothing else does. -/
def Replicates (n n' : Node) : Prop :=
  exists ms next matched log,
    n' = { n with
      msgs := n.msgs ++ ms
      nextIndex := next
      matchIndex := matched
      log := log } ∧
    forall m, m ∈ ms -> m.type = .app ∨ m.type = .snap

theorem Replicates.silent (n : Node) (next : Nat -> Option Nat) (matched : Nat -> Nat)
    (log : RaftLog) :
    Replicates n { n with nextIndex := next, matchIndex := matched, log := log } := by
  refine ⟨[], next, matched, log, ?_, ?_⟩
  · rw [List.append_nil]
  · intro m hm
    cases hm

theorem Replicates.refl (n : Node) : Replicates n n :=
  Replicates.silent n n.nextIndex n.matchIndex n.log

theorem Replicates.trans (h : Replicates n n') (h' : Replicates n' n'') :
    Replicates n n'' := by
  rcases h with ⟨ms, next, matched, log, rfl, hms⟩
  rcases h' with ⟨ms', next', matched', log', rfl, hms'⟩
  refine ⟨ms ++ ms', next', matched', log', ?_, ?_⟩
  · rw [← List.append_assoc]
  · intro m hm
    rcases List.mem_append.mp hm with hm | hm
    · exact hms m hm
    · exact hms' m hm

theorem sendAppend_fields {p : Nat} (h : n.sendAppend p = .ok n') :
    exists m next, n' = { n with msgs := n.msgs ++ [m], nextIndex := next } ∧
      (m.type = .app ∨ m.type = .snap) := by
  rw [sendAppend] at h
  dsimp only at h
  split at h
  · cases h
    exact ⟨_, _, rfl, Or.inr (stamp_type n.core _)⟩
  · rcases bind_eq_ok.mp h with ⟨ents, _, hpure⟩
    cases hpure
    exact ⟨_, n.nextIndex, rfl, Or.inl (stamp_type n.core _)⟩

theorem sendAppend_replicates {p : Nat} (h : n.sendAppend p = .ok n') :
    Replicates n n' := by
  rcases sendAppend_fields h with ⟨m, next, hsame, htype⟩
  refine ⟨[m], next, n.matchIndex, n.log, hsame, ?_⟩
  intro m' hm'
  rw [List.mem_singleton.mp hm']
  exact htype

theorem bcastAppend_replicates (h : n.bcastAppend = .ok n') : Replicates n n' := by
  rw [bcastAppend] at h
  refine foldlM_invariant (P := Replicates n) ?_ (Replicates.refl n) h
  intro a p b _ ha hb
  split at hb
  · cases hb
    exact ha
  · exact ha.trans (sendAppend_replicates hb)

theorem maybeCommit_fields {r : Bool × Node} (h : n.maybeCommit = .ok r) :
    exists own log,
      r.2 = { n with matchIndex := Function.update n.matchIndex n.id own, log := log } ∧
      log.lastIndex = n.log.lastIndex ∧ log.snapIndex = n.log.snapIndex := by
  rw [maybeCommit] at h
  split at h
  · cases h
    refine ⟨n.matchIndex n.id, n.log, ?_, rfl, rfl⟩
    rw [Function.update_eq_self]
  · dsimp only at h
    split at h
    · cases h
    · split at h
      · cases h
        exact ⟨_, n.log, rfl, rfl, rfl⟩
      · split at h
        · cases h
          exact ⟨_, n.log, rfl, rfl, rfl⟩
        · rcases bind_eq_ok.mp h with ⟨log, hlog, hpure⟩
          cases hpure
          have hsame := RaftLog.sameBase_commitTo hlog
          have hentries := RaftLog.commitTo_entries hlog
          refine ⟨_, log, rfl, ?_, hsame.snapIndex⟩
          rw [RaftLog.lastIndex_eq, RaftLog.lastIndex_eq, hentries, hsame.snapIndex]

theorem maybeCommit_replicates {r : Bool × Node} (h : n.maybeCommit = .ok r) :
    Replicates n r.2 := by
  rcases maybeCommit_fields h with ⟨own, log, hr, _⟩
  rw [hr]
  exact Replicates.silent n n.nextIndex _ log

theorem advanceMatch_replicates {m : Message} (h : n.advanceMatch m = .ok n') :
    Replicates n n' := by
  rw [advanceMatch] at h
  split at h
  · rcases bind_eq_ok.mp h with ⟨⟨committed, n1⟩, hr, hrest⟩
    have hset : Replicates n { n with
        matchIndex := Function.update n.matchIndex m.fromId m.logIndex
        nextIndex := Function.update n.nextIndex m.fromId (some (m.logIndex + 1)) } :=
      Replicates.silent n _ _ n.log
    have hcommit := hset.trans (maybeCommit_replicates hr)
    dsimp only at hrest
    split at hrest
    · exact hcommit.trans (bcastAppend_replicates hrest)
    · cases hrest
      exact hcommit
  · cases h
    exact Replicates.refl n

theorem Replicates.roundReads (h : Replicates n n') : n'.roundReads = n.roundReads := by
  rcases h with ⟨_, _, _, _, rfl, _⟩
  rfl

theorem becomeLeader_replicates (h : n.becomeLeader = .ok n') :
    n.role = .candidate ∧ Replicates { n with
      role := .leader
      lead := n.id
      transferee := 0
      heartbeatElapse := 0
      leaseElapsed := 0
      leaseAcks := none
      roundReads := []
      pendingReads := []
      readAcks := ∅ } n' := by
  rw [becomeLeader] at h
  split at h
  · cases h
  · next hrole =>
      refine ⟨not_not.mp hrole, ?_⟩
      rcases bind_eq_ok.mp h with ⟨log, _, h⟩
      rcases bind_eq_ok.mp h with ⟨r, hr, hbeat⟩
      have hcommit := maybeCommit_replicates hr
      have hidle : r.2.roundActive = false := by
        unfold roundActive
        rw [hcommit.roundReads]
        rfl
      unfold bcastHeartbeat at hbeat
      simp only [hidle] at hbeat
      refine Replicates.trans ?_ (hcommit.trans (bcastAppend_replicates hbeat))
      exact Replicates.silent { n with
        role := .leader
        lead := n.id
        transferee := 0
        heartbeatElapse := 0
        leaseElapsed := 0
        leaseAcks := none
        roundReads := []
        pendingReads := []
        readAcks := ∅ } _ _ log

theorem roundReads_renewLeaseAck (n : Node) (sender : Nat) :
    (n.renewLeaseAck sender).roundReads = n.roundReads :=
  congrArg Core.roundReads (core_renewLeaseAck n sender)

end Rounds

/-!
## Message handlers
-/

section Handlers

variable {m : Message}

theorem handleApp_effect (hinp : inp.message = some m) (htype : m.type = .app)
    (hterm : m.term = n.term) :
    Effect inp n.core (fun _ => True) (n.handleApp m) := by
  rw [handleApp]
  generalize hn' : Node.resetElectionTimer
    { n with role := .follower, lead := m.fromId } = n'
  have hcore : n'.core = { n.core with role := .follower } := by
    rw [← hn', core_resetElectionTimer]
    rfl
  have hfollow : Moves inp n.core n'.core := by
    rw [hcore]
    exact ReflTransGen.single (Move.follow hinp htype hterm)
  have hrole' : n'.role = .follower := congrArg Core.role hcore
  have hterm' : m.term = n'.term :=
    hterm.trans (congrArg Core.term hcore).symm
  refine Outcome.after hfollow ?_
  dsimp only
  cases happ : n'.log.maybeAppend m.logIndex m.logTerm m.commit m.entries with
  | error p =>
      exact Outcome.fail (Stuck.badAppend hinp htype hterm' hrole' happ)
  | ok r =>
      rcases r with ⟨accepted, log⟩
      cases accepted with
      | none =>
          have hlog := RaftLog.maybeAppend_none happ
          subst hlog
          exact Outcome.done
            (ReflTransGen.single (Move.refuse hinp htype hterm' hrole'))
            trivial
      | some lastNew =>
          exact Outcome.done
            (ReflTransGen.single (Move.accept hinp htype hterm' hrole' happ))
            trivial

theorem countReadAck_effect (hcount : n.roundReads ≠ [] -> inp.counts = true)
    (hinp : inp.message = some m) (htype : m.type = .appResp)
    (hterm : m.term = n.term) (hrole : n.role = .leader)
    (hreject : m.reject = false) :
    Effect inp n.core (Keeps n) (n.countReadAck m.fromId) := by
  rw [countReadAck]
  split
  · next hactive =>
      have hround := roundActive_iff.mp hactive
      refine Outcome.after (ReflTransGen.single
        (Move.countAck (hcount hround) hinp htype hterm hrole hreject hround)) ?_
      dsimp only
      split
      · next hquorum =>
          exact (confirmReadRound_effect (n := { n with
            readAcks := insert m.fromId n.readAcks }) hrole
            (Or.inr hquorum))
      · exact Outcome.done ReflTransGen.refl rfl
  · exact Outcome.done ReflTransGen.refl (Keeps.refl n)

theorem advanceMatch_effect (hinp : inp.message = some m) (htype : m.type = .appResp)
    (hterm : m.term = n.term) (hrole : n.role = .leader)
    (hreject : m.reject = false) :
    Effect inp n.core (Keeps n) (n.advanceMatch m) := by
  rw [advanceMatch]
  split
  · refine Outcome.after (ReflTransGen.single
      (Move.ack hinp htype hterm hrole hreject)) ?_
    refine Outcome.bind (maybeCommit_effect (n := { n with
      matchIndex := Function.update n.matchIndex m.fromId m.logIndex
      nextIndex :=
        Function.update n.nextIndex m.fromId (some (m.logIndex + 1)) })) ?_
    intro r hr
    have hkeep : Keeps n r.2 := hr
    rcases r with ⟨committed, n'⟩
    dsimp only
    split
    · exact (bcastAppend_effect (hkeep.role.trans hrole)).mono fun a ha =>
        hkeep.trans ha
    · exact Outcome.done ReflTransGen.refl hkeep
  · exact Outcome.done ReflTransGen.refl (Keeps.refl n)

def Counts (n : Node) (m : Message) : Prop :=
  m.type = .appResp ∧ m.term = n.term ∧ n.role = .leader ∧ m.reject = false ∧
    n.roundReads ≠ []

instance (n : Node) (m : Message) : Decidable (n.Counts m) :=
  inferInstanceAs (Decidable (m.type = .appResp ∧ m.term = n.term ∧
    n.role = .leader ∧ m.reject = false ∧ n.roundReads ≠ []))

theorem handleAppResp_effect (hcount : n.Counts m -> inp.counts = true)
    (hinp : inp.message = some m) (htype : m.type = .appResp)
    (hterm : m.term = n.term) :
    Effect inp n.core (fun _ => True) (n.handleAppResp m) := by
  rw [handleAppResp]
  split
  · exact Outcome.done ReflTransGen.refl trivial
  · next hrole =>
      have hrole : n.role = .leader := not_not.mp hrole
      split
      · have hsend : forall {n' : Node}, Keeps n n' ->
            Effect inp n'.core (fun _ => True) (n'.sendAppend m.fromId) := by
          intro n' hn'
          have hanswer : exists m', inp.message = some m' ∧ m'.type = .appResp ∧
              m'.fromId = m.fromId := ⟨m, hinp, htype, rfl⟩
          exact (sendAppend_effect (hn'.role.trans hrole) (Or.inr hanswer)
            (Or.inr hanswer)).mono fun _ _ => trivial
        dsimp only
        split
        · refine Outcome.after
            (ReflTransGen.single (Move.setNext (Nat.le_max_right _ 1)))
            (hsend rfl)
        · exact hsend (Keeps.refl n)
      · next hreject =>
          have hreject : m.reject = false := by simpa using hreject
          split
          · refine Outcome.bind_eq
              (advanceMatch_effect hinp htype hterm hrole hreject) ?_
            intro n1 hn1 h1
            have hround := (advanceMatch_replicates hn1).roundReads
            have hlease := Keeps.of_core (core_renewLeaseAck n1 m.fromId)
            have h2 := h1.trans hlease
            rw [← core_renewLeaseAck n1 m.fromId]
            refine Outcome.bind
              (countReadAck_effect
                (fun hactive => hcount ⟨htype, hterm, hrole, hreject, by
                  rw [← hround, ← roundReads_renewLeaseAck n1 m.fromId]
                  exact hactive⟩)
                hinp htype (hterm.trans h2.term.symm) (h2.role.trans hrole) hreject) ?_
            intro n3 h3
            have h3 := h2.trans h3
            split
            · exact Outcome.done (ReflTransGen.single
                (Move.timeoutNow (h3.role.trans hrole)
                  (Or.inr ⟨m, hinp, htype, rfl⟩))) trivial
            · exact Outcome.done ReflTransGen.refl trivial
          · exact Outcome.done ReflTransGen.refl trivial

theorem handlePreVote_effect :
    Effect inp n.core (fun _ => True) (n.handlePreVote m) := by
  have hsend : forall b, Effect inp n.core (fun _ => True) (Pure.pure (n.send
      { type := .preVoteResp
        toId := m.fromId
        term := m.term
        reject := !b })) :=
    fun _ => Outcome.done (moves_notice (Or.inr (Or.inl rfl))) trivial
  rw [handlePreVote]
  split
  · rcases n.log.isUpToDate_ok m.logIndex m.logTerm with ⟨b, hb⟩
    rw [hb]
    exact hsend b
  · exact hsend false

theorem handlePreVoteResp_effect :
    Effect inp n.core (fun _ => True) (n.handlePreVoteResp m) := by
  rw [handlePreVoteResp]
  split
  · exact Outcome.done ReflTransGen.refl trivial
  · next hguard =>
      have hrole : n.role = .candidate := by
        by_contra h
        exact hguard (Or.inl h)
      have hnot : n.role ≠ .leader := by
        rw [hrole]
        decide
      have hstart : forall n' : Node, n'.core = n.core ->
          Effect inp n.core (fun _ => True)
            (if n'.quorum ≤ n'.preVotes.card then n'.startElection
              else pure n') := by
        intro n' hcore
        rw [← hcore]
        split
        · refine startElection_effect ?_
          rw [show n'.role = n.role from congrArg Core.role hcore]
          exact hnot
        · exact Outcome.done ReflTransGen.refl trivial
      dsimp only
      split
      · exact hstart { n with preVotes := insert m.fromId n.preVotes } rfl
      · exact hstart n rfl

theorem handleVote_effect (hinp : inp.message = some m) (htype : m.type = .vote)
    (hterm : m.term = n.term) :
    Effect inp n.core (fun _ => True) (n.handleVote m) := by
  rw [handleVote]
  have hrefuse : Effect inp n.core (fun _ => True) (Pure.pure (n.send
      { type := .voteResp, toId := m.fromId, reject := true })) :=
    Outcome.done
      (moves_notice (Or.inr (Or.inr (Or.inr ⟨rfl, rfl⟩)))) trivial
  split
  · next hvote =>
      rcases n.log.isUpToDate_ok m.logIndex m.logTerm with ⟨grant, hgrant⟩
      rw [hgrant]
      cases grant with
      | false => exact hrefuse
      | true =>
          refine Outcome.done ?_ trivial
          have hmove := Move.grant (c := n.core) hinp htype hterm hvote hgrant
          have hcore : (Node.resetElectionTimer
              { n with vote := m.fromId }).core =
                { n.core with vote := m.fromId } := by
            rw [core_resetElectionTimer]
            rfl
          change Moves inp n.core
            ((Node.resetElectionTimer { n with vote := m.fromId }).core.say
              { type := .voteResp, toId := m.fromId })
          rw [hcore]
          exact ReflTransGen.single hmove
  · exact hrefuse

theorem handleVoteResp_effect (hinp : inp.message = some m)
    (htype : m.type = .voteResp) (hterm : m.term = n.term) :
    Effect inp n.core (fun _ => True) (n.handleVoteResp m) := by
  rw [handleVoteResp]
  split
  · exact Outcome.done ReflTransGen.refl trivial
  · next hrole =>
      have hrole : n.role = .candidate := not_not.mp hrole
      have hlead : forall n' : Node, n'.role = .candidate ->
          Effect inp n'.core (fun _ => True)
            (if n'.quorum ≤ n'.votes.card then n'.becomeLeader else pure n') := by
        intro n' hn'
        split
        · next hquorum => exact becomeLeader_effect hn' hquorum
        · exact Outcome.done ReflTransGen.refl trivial
      dsimp only
      split
      · next hgrant =>
          refine Outcome.after (ReflTransGen.single
            (Move.tally hinp htype hterm hrole ?_ hgrant.right))
            (hlead { n with votes := insert m.fromId n.votes } hrole)
          simpa using hgrant.left
      · exact hlead n hrole

theorem handlePropose_effect (hinp : inp.message = some m) (htype : m.type = .prop) :
    EffectOf inp n.core (fun _ => True) (n.handlePropose m) := by
  rw [handlePropose]
  split
  · exact Outcome.done ReflTransGen.refl trivial
  · next hrole =>
      have hrole : n.role = .leader := not_not.mp hrole
      split
      · exact Outcome.done ReflTransGen.refl trivial
      · refine appendCommit_effect hrole ?_ ?_
        · intro i e he
          rw [List.getElem?_mapIdx] at he
          rcases Option.map_eq_some_iff.mp he with ⟨d, hd, rfl⟩
          exact ⟨rfl, rfl, rfl,
            Or.inr ⟨m, d, hinp, htype, List.mem_of_getElem? hd, rfl⟩⟩
        · intro r hr
          refine Outcome.bind
            (bcastAppend_effect (hr.role.trans hrole)) ?_
          intro n' _
          exact Outcome.done ReflTransGen.refl trivial

theorem dispatch_effect (hcount : n.Counts m -> inp.counts = true)
    (hinp : inp.message = some m) (hterm : m.term = n.term) :
    Effect inp n.core (fun _ => True) (n.dispatch m) := by
  rw [dispatch]
  split
  · next htype => exact handleVote_effect hinp htype hterm
  · next htype => exact handleVoteResp_effect hinp htype hterm
  · next htype => exact handleApp_effect hinp htype hterm
  · next htype => exact handleAppResp_effect hcount hinp htype hterm
  · next htype =>
      split
      · by_cases hrole : n.role = .leader
        · have hpanic : n.startElection = .error .leaderBecomesCandidate := by
            rw [startElection, becomeCandidate, if_pos hrole]
            rfl
          rw [hpanic]
          exact Outcome.fail (Stuck.leaderTimeout hinp htype hterm hrole)
        · exact startElection_effect hrole
      · exact Outcome.done ReflTransGen.refl trivial
  all_goals exact Outcome.done ReflTransGen.refl trivial

theorem becomeFollower_effect {term : Nat} (lead : Nat) (h : n.term < term) :
    Effect inp n.core (fun n' => n'.term = term ∧ n'.role = .follower)
      (n.becomeFollower term lead) := by
  rcases reset_ok h with ⟨n', hreset, hcore⟩
  rw [becomeFollower, hreset]
  refine Outcome.done ?_ ⟨congrArg Core.term hcore, rfl⟩
  change Moves inp n.core { n'.core with role := .follower }
  rw [hcore]
  exact ReflTransGen.single (Move.adopt h)

theorem step_effect (hcount : n.Counts m -> inp.counts = true)
    (hinp : inp.message = some m) :
    EffectOf inp n.core (fun _ => True) (n.step m) := by
  have hreturn : forall {n' : Node} {x : Except Panic Node},
      Effect inp n'.core (fun _ => True) x ->
      EffectOf inp n'.core (fun _ => True)
        (do let n <- x; pure ((none : Option ProposeError), n)) := by
    intro n' x hx
    exact Outcome.bind hx fun a _ => Outcome.done ReflTransGen.refl trivial
  rw [step]
  split
  · next htype => exact handlePropose_effect hinp htype
  · exact hreturn handlePreVote_effect
  · exact hreturn handlePreVoteResp_effect
  · split
    · split
      · exact Outcome.done
          (moves_notice (Or.inr (Or.inr (Or.inr ⟨rfl, rfl⟩)))) trivial
      · exact Outcome.done ReflTransGen.refl trivial
    · next hge =>
        split
        · next hlt =>
            refine Outcome.bind (becomeFollower_effect _ hlt) ?_
            intro n' hn'
            refine hreturn (dispatch_effect ?_ hinp hn'.left.symm)
            rintro ⟨_, _, hlead, _⟩
            rw [hn'.right] at hlead
            cases hlead
        · exact hreturn (dispatch_effect hcount hinp (by lia))

/-- An acknowledgement that a leader counts, taken apart: up to the count the
round in flight stays, and after it nothing more is counted. -/
theorem step_counted {r : Option ProposeError × Node} (hinp : inp.message = some m)
    (hcounts : n.Counts m) (h : n.step m = .ok r) :
    r.2 = n ∨ exists c : Core, Moves inp n.core c ∧ c.roundReads = n.roundReads ∧
      c.role = .leader ∧ c.term = n.term ∧
      Moves inp { c with readAcks := insert m.fromId c.readAcks } r.2.core := by
  rcases hcounts with ⟨htype, hterm, hrole, hreject, hround⟩
  rcases r with ⟨err, last⟩
  have hhandled : n.handleAppResp m = .ok last := by
    rw [step, htype] at h
    simp only [hterm, Nat.lt_irrefl, if_false] at h
    rcases bind_eq_ok.mp h with ⟨n0, hn0, hrest⟩
    cases hn0
    rcases bind_eq_ok.mp hrest with ⟨n', hn', hpure⟩
    rw [dispatch, htype] at hn'
    cases hpure
    exact hn'
  rw [handleAppResp, if_neg (not_not.mpr hrole), if_neg (by rw [hreject]; decide)]
    at hhandled
  split at hhandled
  · refine Or.inr ?_
    rcases bind_eq_ok.mp hhandled with ⟨n1, hn1, hrest⟩
    rcases bind_eq_ok.mp hrest with ⟨n3, hn3, hlast⟩
    rcases (advanceMatch_effect hinp htype hterm hrole hreject).returned hn1 with
      ⟨hmoves, hkeep⟩
    have hlease := core_renewLeaseAck n1 m.fromId
    have hkeep2 : Keeps n (n1.renewLeaseAck m.fromId) :=
      hkeep.trans (Keeps.of_core hlease)
    have hround1 : (n1.renewLeaseAck m.fromId).roundReads = n.roundReads :=
      (roundReads_renewLeaseAck n1 m.fromId).trans (advanceMatch_replicates hn1).roundReads
    refine ⟨(n1.renewLeaseAck m.fromId).core, ?_, hround1, hkeep2.role.trans hrole,
      hkeep2.term, ?_⟩
    · rw [hlease]
      exact hmoves
    · rw [countReadAck, if_pos (roundActive_iff.mpr (by rw [hround1]; exact hround))]
        at hn3
      let counted : Node :=
        { n1.renewLeaseAck m.fromId with
          readAcks := insert m.fromId (n1.renewLeaseAck m.fromId).readAcks }
      have hcounted : Moves inp counted.core n3.core ∧ Keeps n n3 := by
        dsimp only at hn3
        split at hn3
        · next hquorum =>
            rcases (confirmReadRound_effect (n := counted) (hkeep2.role.trans hrole)
              (Or.inr hquorum)).returned hn3 with ⟨hmoves3, hkeep3⟩
            exact ⟨hmoves3, hkeep2.trans hkeep3⟩
        · cases hn3
          exact ⟨ReflTransGen.refl, hkeep2⟩
      refine hcounted.left.trans ?_
      split at hlast
      · cases hlast
        exact ReflTransGen.single (Move.timeoutNow (hcounted.right.role.trans hrole)
          (Or.inr ⟨m, hinp, htype, rfl⟩))
      · cases hlast
        exact ReflTransGen.refl
  · cases hhandled
    exact Or.inl rfl

theorem step_input_effect : EffectOf (Input.of m) n.core (fun _ => True) (n.step m) :=
  step_effect (fun _ => rfl) rfl

end Handlers

/-!
## Batches
-/

section Batches

variable {n n' : Node} {rd : Ready}

theorem ready_spec (h : n.ready = .ok (rd, n')) :
    n' = { n with msgs := [] } ∧ rd.messages = n.msgs ∧
      rd.readStates = n.readyReadStates ∧
      rd.hardState = (if n.hardState ≠ n.prevHard then some n.hardState else none) ∧
      forall e, e ∈ rd.entries ++ rd.committedEntries -> e ∈ n.log.entries := by
  rcases bind_eq_ok.mp h with ⟨ents, hents, h⟩
  rcases bind_eq_ok.mp h with ⟨committed, hcommitted, hpure⟩
  cases hpure
  refine ⟨rfl, rfl, rfl, rfl, fun e he => ?_⟩
  rcases List.mem_append.mp he with he | he
  · rw [unstableEntries] at hents
    split at hents
    · exact RaftLog.mem_of_slice hents he
    · cases hents
      cases he
  · rw [nextCommitted] at hcommitted
    split at hcommitted
    · exact RaftLog.mem_of_slice hcommitted he
    · cases hcommitted
      cases he

theorem foldl_applyConfEntry {es : List Entry}
    (h : forall e, e ∈ es -> e.type = .normal) (n : Node) :
    es.foldl Node.applyConfEntry n = n := by
  induction es with
  | nil => rfl
  | cons e es ih =>
      have he : n.applyConfEntry e = n := by
        rw [Node.applyConfEntry, h e (by simp), if_neg (by decide)]
      rw [List.foldl_cons, he]
      exact ih fun d hd => h d (List.mem_cons_of_mem e hd)

/-- Acknowledging a batch without membership changes: the node may commit, then
its applied index moves and the served reads go. -/
theorem advance_spec (hplain : forall e, e ∈ rd.committedEntries -> e.type = .normal)
    (h : n.advance rd = .ok n') :
    exists stabled c log,
      Moves {}
        { n.core with
          prevHard := rd.hardState.getD n.prevHard
          stabled := stabled } c ∧
      log.entries = c.log.entries ∧
      n'.core =
        { c with
          log := log
          readReady :=
            c.readReady.filter fun r => r.id ∉ rd.readStates.map ReadState.id } := by
  rcases bind_eq_ok.mp h with ⟨n1, hn1, h⟩
  rcases bind_eq_ok.mp h with ⟨n2, hn2, hpure⟩
  cases hpure
  have hstable : exists stabled, Moves {}
      { n.core with prevHard := rd.hardState.getD n.prevHard, stabled := stabled }
      n1.core := by
    rw [advanceStable] at hn1
    split at hn1
    · cases hn1
      exact ⟨n.stabled, ReflTransGen.refl⟩
    · next e hlast =>
        rcases bind_eq_ok.mp hn1 with ⟨r, hr, hpure⟩
        cases hpure
        exact ⟨e.index, (maybeCommit_effect.returned hr).left⟩
  rcases hstable with ⟨stabled, hmoves⟩
  rw [advanceApplied] at hn2
  split at hn2
  · cases hn2
    exact ⟨stabled, n1.core, n1.log, hmoves, rfl, rfl⟩
  · rcases bind_eq_ok.mp hn2 with ⟨log, hlog, hpure⟩
    cases hpure
    rw [foldl_applyConfEntry hplain] at hlog
    refine ⟨stabled, n1.core, log, hmoves, (RaftLog.appliedTo_entries hlog).left, ?_⟩
    rw [foldl_applyConfEntry hplain]
    rfl

end Batches

end Node
end Raft
end Basalt
