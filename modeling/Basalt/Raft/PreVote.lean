import Basalt.Raft.Cluster
import Basalt.Raft.Operations

/-!
# Pre-vote rounds and elections

A node asks for votes only after a quorum of voters has said that it would grant
them.  The pre-vote round shares the candidate's role with the election, and an
answer is taken for one to an election that is over as long as the votes of that
election are there.  Nothing but a new term removes them.
-/

namespace Basalt
namespace Raft

open Lib

/-- The node stands for election in the next term: it leads, or it has asked
everyone for a vote. -/
def Contests (n n' : Node) : Prop :=
  n'.term = n.term + 1 ∧
    (n'.role = .leader ∨
      (n'.role = .candidate ∧ forall p, p ∈ n.peers -> p ≠ n.id ->
        exists m, m ∈ n'.msgs ∧ m.type = .vote ∧ m.toId = p ∧ m.term = n.term + 1))

namespace Node

def GrantFor (n : Node) (m : Message) : Prop :=
  m.type = .preVoteResp ∧ m.reject = false ∧ m.term = n.term + 1 ∧ m.fromId ∈ n.voters

/-- Granted answers that form a quorum with the node itself. -/
def WonRound (n : Node) (rs : List Message) : Prop :=
  (forall m, m ∈ rs -> n.GrantFor m) ∧
    n.quorum ≤ (insert n.id (rs.map Message.fromId).toFinset).card

def receive (n : Node) (rs : List Message) : Except Panic Node :=
  rs.foldlM (fun n m => do
    let r <- n.step m
    pure r.2) n

/-- A campaign and the answers to it, with nothing in between. -/
def Elects (n : Node) (rs : List Message) : Prop :=
  exists asked n', n.campaign = .ok asked ∧ asked.receive rs = .ok n' ∧ Contests n n'

def reply (v : Node) (sent : List Message) : Except Panic (List Message) := do
  let v' <- v.receive (sent.filter fun m => m.toId = v.id)
  pure (v'.msgs.drop v.msgs.length)

def answers (n : Node) (others : List Node) : Except Panic (List Message) := do
  let asked <- n.campaign
  let rs <- others.mapM fun v => v.reply (asked.msgs.drop n.msgs.length)
  pure rs.flatten

/-- Voters whose logs end as the node's does and whose terms are not later, a
quorum with it. -/
def LikeMinded (n : Node) (others : List Node) : Prop :=
  (forall v, v ∈ others -> v.id ∈ n.voters ∧ v.id ≠ n.id ∧ v.term ≤ n.term ∧
    v.log.lastIndex = n.log.lastIndex ∧
    v.log.term v.log.lastIndex = n.log.term n.log.lastIndex) ∧
  n.quorum ≤ (insert n.id (others.map Node.id).toFinset).card

variable {n n' : Node} {m : Message} {rs : List Message} {others : List Node}

/-!
## Elections do not fail
-/

structure Tracks (c : Core) : Prop where
  voter : c.id ∈ c.voters
  progress : c.role = .leader -> forall p, p ∈ c.voters ++ c.learners ->
    exists x, c.nextIndex p = some x ∧ 1 ≤ x

theorem Tracks.of_update {c : Core} (h : Tracks c) {p x : Nat} (hx : 1 ≤ x) :
    Tracks { c with nextIndex := Function.update c.nextIndex p (some x) } := by
  refine ⟨h.voter, ?_⟩
  intro hrole q hq
  show exists y, Function.update c.nextIndex p (some x) q = some y ∧ 1 ≤ y
  by_cases hp : q = p
  · rw [hp, Function.update_self]
    exact ⟨x, rfl, hx⟩
  · rw [Function.update_of_ne hp]
    exact h.progress hrole q hq

theorem Tracks.move {inp : Input} {c c' : Core} (h : Tracks c) (hmove : Move inp c c') :
    Tracks c' := by
  cases hmove with
  | adopt | campaign | preCampaign | follow => exact ⟨h.voter, fun hrole => by cases hrole⟩
  | lead =>
      refine ⟨h.voter, fun _ p hp => ?_⟩
      exact ⟨_, if_pos hp, Nat.le_add_left 1 _⟩
  | ack => exact { h.of_update (Nat.le_add_left 1 _) with }
  | setNext hx => exact h.of_update hx
  | _ => exact { h with }

theorem Tracks.not_stuck {c : Core} (h : Tracks c) : ¬ Stuck {} c := by
  intro hstuck
  cases hstuck with
  | noVoters hnone =>
      have hvoter := h.voter
      rw [hnone] at hvoter
      cases hvoter
  | noProgress hrole hpeer hzero =>
      rcases hpeer with hpeer | ⟨m, hm, _⟩
      · rcases h.progress hrole _ hpeer with ⟨x, hx, hpos⟩
        have := hzero x hx
        lia
      · cases hm
  | leaderTimeout hm | badAppend hm => cases hm

theorem becomeLeader_leads (h : n.becomeLeader = .ok n') :
    n'.role = .leader ∧ n'.term = n.term := by
  rcases becomeLeader_replicates h with ⟨_, _, _, _, _, rfl, _⟩
  exact ⟨rfl, rfl⟩

theorem startElection_contests (hvoter : n.id ∈ n.voters) (hrole : n.role ≠ .leader) :
    exists n', n.startElection = .ok n' ∧ Contests n n' ∧
      (n'.role ≠ .candidate ∨ n'.votes ≠ ∅) := by
  have htracks : Tracks n.core := ⟨hvoter, fun h => absurd h hrole⟩
  rcases (startElection_effect hrole).safe (fun _ _ => Tracks.move)
    (fun _ => Tracks.not_stuck) htracks with ⟨n', hok, _, _⟩
  refine ⟨n', hok, ?_⟩
  rcases becomeCandidate_ok hrole with ⟨stood, hstood, hcore⟩
  have hterm : stood.term = n.term + 1 := congrArg Core.term hcore
  have hid : stood.id = n.id := congrArg Core.id hcore
  have hpeers : stood.peers = n.peers := congrArg (fun c => c.voters ++ c.learners) hcore
  rw [startElection, hstood] at hok
  change (if stood.quorum ≤ stood.votes.card then stood.becomeLeader
    else stood.bcastVote .vote stood.term) = .ok n' at hok
  split at hok
  · rcases becomeLeader_leads hok with ⟨hleads, hsame⟩
    refine ⟨⟨hsame.trans hterm, Or.inl hleads⟩, Or.inl ?_⟩
    rw [hleads]
    decide
  · rcases stood.log.lastTerm_ok with ⟨lastTerm, hlast⟩
    rw [bcastVote_eq _ _ hlast] at hok
    cases hok
    refine ⟨⟨hterm, Or.inr ⟨congrArg Core.role hcore, ?_⟩⟩, Or.inr ?_⟩
    · intro p hp hne
      refine ⟨_, List.mem_append_right _ (List.mem_map_of_mem (a := p) ?_), ?_⟩
      · rw [List.mem_filter, hpeers, hid]
        exact ⟨hp, by simpa using hne⟩
      · simp only [stamp_eq, hterm, Nat.add_one_ne_zero, if_false, and_self]
    · rw [show stood.votes = {n.id} from congrArg Core.votes hcore]
      exact Finset.singleton_ne_empty _

/-!
## Answers
-/

theorem step_preVoteResp (htype : m.type = .preVoteResp) :
    n.step m = (do
      let n <- n.handlePreVoteResp m
      pure (none, n)) := by
  rw [step, htype]

theorem receive_cons (n : Node) (m : Message) (rs : List Message) :
    n.receive (m :: rs) = (do
      let r <- n.step m
      r.2.receive rs) := by
  unfold receive
  rw [List.foldlM_cons, bind_assoc]
  rfl

theorem receive_ignored (hidle : n.role ≠ .candidate ∨ n.votes ≠ ∅)
    (hrs : forall m, m ∈ rs -> m.type = .preVoteResp) : n.receive rs = .ok n := by
  induction rs with
  | nil => rfl
  | cons m rs ih =>
      rw [receive_cons, step_preVoteResp (hrs m List.mem_cons_self), handlePreVoteResp,
        if_pos hidle]
      exact ih fun m hm => hrs m (List.mem_cons_of_mem _ hm)

theorem receive_contests (hvoter : n.id ∈ n.voters) (hrole : n.role = .candidate)
    (hvotes : n.votes = ∅) (hgrants : forall m, m ∈ rs -> n.GrantFor m)
    (hopen : n.preVotes.card < n.quorum)
    (hquorum : n.quorum ≤ (n.preVotes ∪ (rs.map Message.fromId).toFinset).card) :
    exists n', n.receive rs = .ok n' ∧ Contests n n' := by
  induction rs generalizing n with
  | nil =>
      rw [List.map_nil, List.toFinset_nil, Finset.union_empty] at hquorum
      lia
  | cons m rs ih =>
      rcases hgrants m List.mem_cons_self with ⟨htype, hreject, _, hfrom⟩
      have hrest : forall m, m ∈ rs -> n.GrantFor m := fun m hm =>
        hgrants m (List.mem_cons_of_mem _ hm)
      let counted : Node := { n with preVotes := insert m.fromId n.preVotes }
      have hcount : n.handlePreVoteResp m =
          if counted.quorum ≤ counted.preVotes.card then counted.startElection
          else pure counted := by
        have hgrant : (!m.reject) = true ∧ m.fromId ∈ n.voters := ⟨by rw [hreject]; rfl, hfrom⟩
        unfold handlePreVoteResp
        rw [if_neg (by simp [hrole, hvotes])]
        simp only [if_pos hgrant]
        rfl
      rw [receive_cons, step_preVoteResp htype, hcount]
      split
      · rcases startElection_contests (n := counted) hvoter (by
          show n.role ≠ .leader
          rw [hrole]
          decide) with ⟨n', hn', hcontests, hidle⟩
        rw [hn']
        exact ⟨n', receive_ignored hidle fun m hm => (hrest m hm).left, hcontests⟩
      · next hfew =>
          apply ih (n := counted) hvoter hrole hvotes hrest (by lia)
          rw [List.map_cons, List.toFinset_cons, Finset.union_insert] at hquorum
          show n.quorum ≤ (insert m.fromId n.preVotes ∪ _).card
          rw [Finset.insert_union]
          exact hquorum

/-!
## Campaigns
-/

def voteProbe (n : Node) (lastTerm p : Nat) : Message where
  type := .preVote
  fromId := n.id
  toId := p
  term := n.term + 1
  logIndex := n.log.lastIndex
  logTerm := lastTerm

def voteProbes (n : Node) (lastTerm : Nat) : List Message :=
  (n.peers.filter fun p => p ≠ n.id).map (n.voteProbe lastTerm)

theorem campaign_asks (hvoter : n.id ∈ n.voters) (hrole : n.role ≠ .leader)
    (hquorum : n.quorum ≠ 1) {lastTerm : Nat} (hlast : n.log.lastTerm = .ok lastTerm) :
    exists asked, n.campaign = .ok asked ∧ asked.preVotes = {n.id} ∧
      asked.core = { n.core with
        role := .candidate
        msgs := n.msgs ++ n.voteProbes lastTerm } := by
  rcases becomePreCandidate_ok hrole with ⟨opened, hopened, hcore, hpre⟩
  have hsame : opened.quorum = n.quorum := congrArg Core.quorum hcore
  have hterm : opened.term = n.term := congrArg Core.term hcore
  have hlog : opened.log = n.log := congrArg Core.log hcore
  have hid : opened.id = n.id := congrArg Core.id hcore
  have hpeers : opened.peers = n.peers := congrArg (fun c => c.voters ++ c.learners) hcore
  have hfew : ¬ opened.quorum ≤ opened.preVotes.card := by
    have hpos : 1 ≤ n.quorum := Nat.le_add_left 1 _
    rw [hpre, hsame, Finset.card_singleton]
    lia
  unfold campaign
  rw [if_neg (not_not.mpr hvoter), hopened]
  show exists asked, (if opened.quorum ≤ opened.preVotes.card then opened.startElection
    else opened.bcastVote .preVote (opened.term + 1)) = .ok asked ∧ _
  rw [← hlog] at hlast
  rw [if_neg hfew, bcastVote_eq _ _ hlast]
  refine ⟨_, rfl, hpre, ?_⟩
  have hsent : forall ms, Node.core { opened with msgs := opened.msgs ++ ms } =
      { n.core with role := .candidate, msgs := n.msgs ++ ms } := by
    intro ms
    show { opened.core with msgs := opened.core.msgs ++ ms } = _
    rw [hcore]
    rfl
  rw [hsent]
  simp only [stamp_eq, hterm, hlog, hpeers, hid, Nat.add_one_ne_zero, if_false]
  rw [show opened.core.id = n.id from hid]
  rfl

theorem campaign_eq_startElection (hvoter : n.id ∈ n.voters) (hrole : n.role ≠ .leader)
    (hquorum : n.quorum = 1) :
    exists opened : Node, n.campaign = opened.startElection ∧
      opened.core = { n.core with role := .candidate } := by
  rcases becomePreCandidate_ok hrole with ⟨opened, hopened, hcore, hpre⟩
  have hsame : opened.quorum = n.quorum := congrArg Core.quorum hcore
  refine ⟨opened, ?_, hcore⟩
  unfold campaign
  rw [if_neg (not_not.mpr hvoter), hopened]
  show (if opened.quorum ≤ opened.preVotes.card then opened.startElection
    else opened.bcastVote .preVote (opened.term + 1)) = opened.startElection
  rw [if_pos (by rw [hpre, hsame, hquorum, Finset.card_singleton])]

theorem campaign_contests (hvoter : n.id ∈ n.voters) (hrole : n.role ≠ .leader)
    (hquorum : n.quorum = 1) :
    exists n', n.campaign = .ok n' ∧ Contests n n' ∧
      (n'.role ≠ .candidate ∨ n'.votes ≠ ∅) := by
  rcases campaign_eq_startElection hvoter hrole hquorum with ⟨opened, hcampaign, hcore⟩
  have hterm : opened.term = n.term := congrArg Core.term hcore
  have hid : opened.id = n.id := congrArg Core.id hcore
  have hvoters : opened.voters = n.voters := congrArg Core.voters hcore
  have hpeers : opened.peers = n.peers := congrArg (fun c => c.voters ++ c.learners) hcore
  have hrole' : opened.role ≠ .leader := by
    rw [show opened.role = .candidate from congrArg Core.role hcore]
    decide
  rcases startElection_contests (by rw [hid, hvoters]; exact hvoter) hrole' with
    ⟨n', hn', hcontests, hidle⟩
  refine ⟨n', hcampaign.trans hn', ?_, hidle⟩
  unfold Contests at hcontests ⊢
  rw [hterm, hpeers, hid] at hcontests
  exact hcontests

theorem not_elects (hvoter : n.id ∈ n.voters) (hrole : n.role ≠ .leader)
    (hvotes : n.votes ≠ ∅) (hquorum : n.quorum ≠ 1) (hgrants : forall m, m ∈ rs -> n.GrantFor m) :
    ¬ n.Elects rs := by
  rintro ⟨asked, n', hasked, hn', hterm, _⟩
  rcases n.log.lastTerm_ok with ⟨lastTerm, hlast⟩
  rcases campaign_asks hvoter hrole hquorum hlast with ⟨sent, hsent, _, hcore⟩
  have hsame : sent = asked := Except.ok.inj (hsent.symm.trans hasked)
  rw [hsame] at hcore
  have hidle : asked.votes ≠ ∅ := by
    rw [show asked.votes = n.votes from congrArg Core.votes hcore]
    exact hvotes
  rw [receive_ignored (Or.inr hidle) fun m hm => (hgrants m hm).left] at hn'
  cases hn'
  have hstays : asked.term = n.term := congrArg Core.term hcore
  lia

theorem elects_iff_votes (hvoter : n.id ∈ n.voters) (hrole : n.role ≠ .leader)
    (hwon : n.WonRound rs) : n.Elects rs <-> n.votes = ∅ ∨ n.quorum = 1 := by
  rcases hwon with ⟨hgrants, hcount⟩
  constructor
  · intro h
    by_contra hnot
    rw [not_or] at hnot
    exact not_elects hvoter hrole hnot.left hnot.right hgrants h
  · intro h
    by_cases hquorum : n.quorum = 1
    · rcases campaign_contests hvoter hrole hquorum with ⟨n', hn', hcontests, hidle⟩
      exact ⟨n', n', hn', receive_ignored hidle fun m hm => (hgrants m hm).left, hcontests⟩
    · have hvotes : n.votes = ∅ := h.resolve_right hquorum
      rcases n.log.lastTerm_ok with ⟨lastTerm, hlast⟩
      rcases campaign_asks hvoter hrole hquorum hlast with ⟨asked, hasked, hpre, hcore⟩
      have hid : asked.id = n.id := congrArg Core.id hcore
      have hterm : asked.term = n.term := congrArg Core.term hcore
      have hvoters : asked.voters = n.voters := congrArg Core.voters hcore
      have hpeers : asked.peers = n.peers := congrArg (fun c => c.voters ++ c.learners) hcore
      have hsame : asked.quorum = n.quorum := congrArg Core.quorum hcore
      have hgrants' : forall m, m ∈ rs -> asked.GrantFor m := by
        unfold GrantFor
        rw [hterm, hvoters]
        exact hgrants
      rcases receive_contests (by rw [hid, hvoters]; exact hvoter) (congrArg Core.role hcore)
        ((congrArg Core.votes hcore).trans hvotes) hgrants'
        (by
          have hpos : 1 ≤ n.quorum := Nat.le_add_left 1 _
          rw [hpre, hsame, Finset.card_singleton]
          lia)
        (by
          rw [hpre, hsame, Finset.singleton_union]
          exact hcount) with ⟨n', hn', hcontests⟩
      refine ⟨asked, n', hasked, hn', ?_⟩
      unfold Contests at hcontests ⊢
      rw [hterm, hpeers, hid] at hcontests
      exact hcontests

/-!
## Voters that grant each other
-/

def grant (v : Node) (m : Message) : Message where
  type := .preVoteResp
  fromId := v.id
  toId := m.fromId
  term := m.term

theorem receive_probes {v : Node} {ms : List Message} {lastTerm : Nat}
    (hlast : v.log.lastTerm = .ok lastTerm)
    (hms : forall m, m ∈ ms -> m.type = .preVote ∧ v.term < m.term ∧
      m.logIndex = v.log.lastIndex ∧ m.logTerm = lastTerm) :
    v.receive ms = .ok { v with
      msgs := v.msgs ++ ms.map v.grant } := by
  induction ms generalizing v with
  | nil =>
      rw [List.map_nil, List.append_nil]
      rfl
  | cons m ms ih =>
      rcases hms m List.mem_cons_self with ⟨htype, hterm, hindex, hlogTerm⟩
      have hsent : v.handlePreVote m = .ok { v with
          msgs := v.msgs ++ [v.grant m] } := by
        unfold handlePreVote RaftLog.isUpToDate
        rw [if_pos hterm, hlast, hindex, hlogTerm]
        show (if lastTerm ≠ lastTerm then _ else _ : Except Panic Bool) >>= _ = _
        rw [if_neg (not_not.mpr rfl), decide_eq_true (Nat.le_refl _)]
        show Except.ok { v with msgs := v.msgs ++ [v.core.stamp _] } = _
        rw [stamp_eq, if_neg (show m.term ≠ 0 by lia)]
        rfl
      have hstep : v.step m = (do
          let n <- v.handlePreVote m
          pure (none, n)) := by
        rw [step, htype]
      rw [receive_cons, hstep, hsent]
      refine Eq.trans (ih hlast fun m hm => hms m (List.mem_cons_of_mem _ hm)) ?_
      rw [List.map_cons, List.append_assoc, List.singleton_append]
      rfl

theorem eq_id_of_quorum (hvoter : n.id ∈ n.voters) (hquorum : n.quorum = 1) {p : Nat}
    (hp : p ∈ n.voters) : p = n.id := by
  have hlen : n.voters.length ≤ 1 := by
    unfold quorum at hquorum
    lia
  match hlist : n.voters with
  | [] =>
      rw [hlist] at hp
      cases hp
  | [a] =>
      rw [hlist, List.mem_singleton] at hp hvoter
      rw [hp, hvoter]
  | _ :: _ :: _ =>
      rw [hlist, List.length_cons, List.length_cons] at hlen
      lia

theorem LikeMinded.answers (h : n.LikeMinded others) (hvoter : n.id ∈ n.voters)
    (hrole : n.role ≠ .leader) : exists rs, n.answers others = .ok rs ∧ n.WonRound rs := by
  rcases h with ⟨hothers, hcount⟩
  by_cases hquorum : n.quorum = 1
  · have hnone : others = [] := by
      apply List.eq_nil_iff_forall_not_mem.mpr
      intro v hv
      rcases hothers v hv with ⟨hmem, hne, _⟩
      exact hne (eq_id_of_quorum hvoter hquorum hmem)
    subst hnone
    rcases campaign_contests hvoter hrole hquorum with ⟨asked, hasked, _⟩
    refine ⟨[], ?_, fun m hm => (by cases hm), hcount⟩
    unfold Node.answers
    rw [hasked]
    rfl
  · rcases n.log.lastTerm_ok with ⟨lastTerm, hlast⟩
    rcases campaign_asks hvoter hrole hquorum hlast with ⟨asked, hasked, _, hcore⟩
    have hmsgs : asked.msgs.drop n.msgs.length = n.voteProbes lastTerm := by
      rw [show asked.msgs = n.msgs ++ n.voteProbes lastTerm from congrArg Core.msgs hcore,
        List.drop_left]
    have hreply : forall v, v ∈ others -> v.reply (n.voteProbes lastTerm) =
        .ok (((n.voteProbes lastTerm).filter fun m => m.toId = v.id).map v.grant) := by
      intro v hv
      rcases hothers v hv with ⟨_, _, hterm, hindex, hend⟩
      have hvlast : v.log.lastTerm = .ok lastTerm := by
        rw [RaftLog.lastTerm, hend]
        exact hlast
      have hprobes : forall m, m ∈ (n.voteProbes lastTerm).filter (fun m => m.toId = v.id) ->
          m.type = .preVote ∧ v.term < m.term ∧ m.logIndex = v.log.lastIndex ∧
            m.logTerm = lastTerm := by
        intro m hm
        rcases List.mem_map.mp (List.mem_filter.mp hm).left with ⟨p, _, rfl⟩
        exact ⟨rfl, Nat.lt_succ_of_le hterm, hindex.symm, rfl⟩
      unfold reply
      rw [receive_probes hvlast hprobes]
      show Except.ok (List.drop _ (_ ++ _)) = _
      rw [List.drop_left]
    refine ⟨(others.map fun v =>
      ((n.voteProbes lastTerm).filter fun m => m.toId = v.id).map v.grant).flatten, ?_, ?_, ?_⟩
    · unfold Node.answers
      rw [hasked]
      show (others.mapM fun v => v.reply (asked.msgs.drop n.msgs.length)) >>= _ = _
      rw [hmsgs, mapM_ok hreply]
      rfl
    · intro m hm
      rcases List.mem_flatten.mp hm with ⟨l, hl, hml⟩
      rcases List.mem_map.mp hl with ⟨v, hv, rfl⟩
      rcases List.mem_map.mp hml with ⟨probe, hprobe, rfl⟩
      rcases List.mem_map.mp (List.mem_filter.mp hprobe).left with ⟨p, _, rfl⟩
      exact ⟨rfl, rfl, rfl, (hothers v hv).left⟩
    · refine Nat.le_trans hcount (Finset.card_le_card (Finset.insert_subset_insert _ ?_))
      intro p hp
      rw [List.mem_toFinset] at hp ⊢
      rcases List.mem_map.mp hp with ⟨v, hv, rfl⟩
      rcases hothers v hv with ⟨hmem, hne, _⟩
      -- The probe that went to this voter is the one it answered.
      have hprobe : n.voteProbe lastTerm v.id ∈
          (n.voteProbes lastTerm).filter fun m => m.toId = v.id := by
        refine List.mem_filter.mpr ⟨List.mem_map_of_mem (List.mem_filter.mpr ⟨?_, ?_⟩), ?_⟩
        · exact List.mem_append_left _ hmem
        · simpa using hne
        · simp [voteProbe]
      exact List.mem_map.mpr ⟨v.grant (n.voteProbe lastTerm v.id),
        List.mem_flatten.mpr ⟨_, List.mem_map_of_mem hv, List.mem_map_of_mem hprobe⟩, rfl⟩

/-- A won round leads to an election exactly when no vote of an earlier election
is left, or the node needs nobody else.  Voters with the same log win the round
for each other. -/
theorem elects_iff (n : Node) (hvoter : n.id ∈ n.voters) (hrole : n.role ≠ .leader) :
    (forall rs, n.WonRound rs -> (n.Elects rs <-> n.votes = ∅ ∨ n.quorum = 1)) ∧
      forall others, n.LikeMinded others -> exists rs, n.answers others = .ok rs ∧
        n.WonRound rs ∧ (n.Elects rs <-> n.votes = ∅ ∨ n.quorum = 1) := by
  constructor
  · intro rs hwon
    exact elects_iff_votes hvoter hrole hwon
  · intro others hlike
    rcases hlike.answers hvoter hrole with ⟨rs, hrs, hwon⟩
    exact ⟨rs, hrs, hwon, elects_iff_votes hvoter hrole hwon⟩

end Node

theorem elects_fresh :
    Node.Elects { id := 1, voters := [1, 2, 3] }
      [{ type := .preVoteResp, fromId := 2, toId := 1, term := 1 }] := by
  refine ((Node.elects_iff _ (by decide) (by decide)).left _ ⟨?_, by decide⟩).mpr (Or.inl rfl)
  intro m hm
  rw [List.mem_singleton.mp hm]
  exact ⟨rfl, rfl, rfl, by decide⟩

/-!
## A split vote

All three nodes win the pre-vote round for the first term and vote for
themselves.  From then on each of them ignores the answers that the others give
to its probes.
-/

def splitVote : List Action :=
  [.campaign 1, .ready 1, .campaign 2, .ready 2, .campaign 3, .ready 3,
    .deliver 0, .ready 2, .deliver 2, .ready 1, .deliver 5, .ready 2,
    .deliver 6, .deliver 7, .deliver 8, .ready 1, .ready 2, .ready 3,
    .deliver 9, .deliver 10, .deliver 11, .deliver 12, .deliver 13, .deliver 14]

theorem not_elects_splitVote :
    exists cl, ClusterConfig.three.Reachable cl ∧ forall i, i ∈ [1, 2, 3] ->
      (cl.nodes i).role = .candidate ∧
      (cl.nodes i).LikeMinded (([1, 2, 3].filter fun p => p ≠ i).map cl.nodes) ∧
      exists rs,
        (cl.nodes i).answers (([1, 2, 3].filter fun p => p ≠ i).map cl.nodes) = .ok rs ∧
        (cl.nodes i).WonRound rs ∧ ¬ (cl.nodes i).Elects rs := by
  have hrun : okWith (ClusterConfig.three.run splitVote)
      (fun cl => [1, 2, 3].all fun i =>
        (cl.nodes i).id = i ∧ (cl.nodes i).voters = [1, 2, 3] ∧
        (cl.nodes i).role = .candidate ∧ (cl.nodes i).votes ≠ ∅ ∧ (cl.nodes i).term = 1 ∧
        (cl.nodes i).log.lastIndex = 0 ∧ (cl.nodes i).log.term 0 = some 0) := by
    decide +kernel
  rcases exists_of_okWith hrun with ⟨cl, hcl, hcheck⟩
  have hnodes := fun i hi => of_decide_eq_true (List.all_eq_true.mp hcheck i hi)
  refine ⟨cl, ClusterConfig.reachable_run hcl, ?_⟩
  intro i hi
  rcases hnodes i hi with ⟨hid, hvoters, hrole, hvotes, hterm, hlast, hlastTerm⟩
  have hquorum : (cl.nodes i).quorum = 2 := by
    unfold Node.quorum
    rw [hvoters]
    rfl
  have hvoter : (cl.nodes i).id ∈ (cl.nodes i).voters := by
    rw [hid, hvoters]
    exact hi
  have hnot : (cl.nodes i).role ≠ .leader := by
    rw [hrole]
    decide
  have hlike : (cl.nodes i).LikeMinded (([1, 2, 3].filter fun p => p ≠ i).map cl.nodes) := by
    constructor
    · intro v hv
      rcases List.mem_map.mp hv with ⟨p, hp, rfl⟩
      rcases List.mem_filter.mp hp with ⟨hp, hne⟩
      rcases hnodes p hp with ⟨hpid, _, _, _, hpterm, hplast, hplastTerm⟩
      rw [hpid, hid, hvoters, hpterm, hterm, hplast, hlast, hplastTerm, hlastTerm]
      exact ⟨hp, by simpa using hne, Nat.le_refl 1, rfl, rfl⟩
    · have hids : (([1, 2, 3].filter fun p => p ≠ i).map cl.nodes).map Node.id =
          [1, 2, 3].filter fun p => p ≠ i := by
        rw [List.map_map]
        refine Eq.trans (List.map_congr_left fun p hp => ?_) (List.map_id _)
        exact (hnodes p (List.mem_filter.mp hp).left).left
      have hcard : forall i, i ∈ [1, 2, 3] ->
          2 ≤ (insert i ([1, 2, 3].filter fun p => p ≠ i).toFinset).card := by
        decide
      rw [hids, hquorum, hid]
      exact hcard i hi
  rcases hlike.answers hvoter hnot with ⟨rs, hrs, hwon⟩
  exact ⟨hrole, hlike, rs, hrs, hwon,
    Node.not_elects hvoter hnot hvotes (by rw [hquorum]; decide) hwon.left⟩

end Raft
end Basalt
