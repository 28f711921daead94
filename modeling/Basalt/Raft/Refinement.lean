import Basalt.Lib.ReplicatedLog.Safety
import Basalt.Raft.LogView
import Basalt.Raft.Machine

/-!
# The nodes refine the replicated-log protocol

The abstract state of `Lib.ReplicatedLog` is related to the cores of the
nodes: a core's log is a view of the abstract log, its vote, tally and match
indexes are facts of the abstract state, and every message carries a fact.
Each small transition of a core is then matched by transitions of the
protocol.
-/

namespace Basalt
namespace Raft

open Lib Lib.ReplicatedLog

abbrev AbstractState := State Nat Entry

def MsgOK (voters : Finset Nat) (s : AbstractState) (m : Message) : Prop :=
  m.fromId ∈ voters ∧
    match m.type with
    | .vote =>
        exists C, s.cand m.term m.fromId = some C ∧
          m.logIndex = C.length ∧ m.logTerm = lastTerm Entry.term C
    | .voteResp => m.reject = false -> s.votes m.fromId m.term m.toId
    | .app =>
        m.toId ≠ m.fromId ∧
        (exists Q, s.lead m.term = some (m.fromId, Q)) ∧
        exists j, m.logIndex ≤ j ∧ j ≤ (s.termLog m.term).length ∧
          m.logTerm = termAt Entry.term (s.termLog m.term) m.logIndex ∧
          m.entries =
            ((s.termLog m.term).drop m.logIndex).take (j - m.logIndex) ∧
          m.commit ≤ j ∧
          (m.commit = 0 ∨ exists t k, s.chosen t k ∧ t ≤ m.term ∧
            m.commit ≤ k ∧
            (s.termLog m.term).take m.commit <+: s.termLog t)
    | .appResp =>
        m.toId ≠ m.fromId ∧
          (m.reject = false -> s.acks m.fromId m.term m.logIndex)
    | .timeoutNow =>
        m.toId ≠ m.fromId ∧ exists Q, s.lead m.term = some (m.fromId, Q)
    | .prop => False
    | .preVote | .preVoteResp | .snap => True

def Tidy (s : AbstractState) : Prop :=
  forall {t x}, s.lead t = some x ->
    Numbered (s.termLog t) ∧ forall e, e ∈ s.termLog t -> e.type = .normal

/-- The core of node `i` in terms of the abstract state. -/
structure NodeSim (voters : Finset Nat) (s : AbstractState) (i : Nat)
    (c : Core) : Prop where
  id_eq : c.id = i
  voters_nodup : c.voters.Nodup
  voters_eq : c.voters.toFinset = voters
  learners_nil : c.learners = []
  term_eq : s.term i = c.term
  view : View c.log (s.log i)
  plain : forall e, e ∈ s.log i -> e.type = .normal
  commit_eq : s.commit i = c.log.committed
  vote_of : forall {x}, s.votes i c.term x -> c.vote = x ∧ x ≠ 0
  vote_some : c.vote ≠ 0 -> s.votes i c.term c.vote
  tally : forall {v}, v ∈ c.votes -> v ∈ voters ∧ s.votes v c.term i
  lead_iff : c.role = .leader <-> exists Q, s.lead c.term = some (i, Q)
  progress : c.role = .leader ->
    forall {p}, p ∈ voters -> exists x, c.nextIndex p = some x ∧ 1 ≤ x
  matched : c.role = .leader -> forall p, c.matchIndex p = 0 ∨
    exists j, c.matchIndex p ≤ j ∧ s.acks p c.term j
  applied_le : c.log.applied ≤ c.stabled
  msgs_ok : forall {m}, m ∈ c.msgs -> MsgOK voters s m

/-- The input of an operation of node `i`: a proposal, or a message of the
network that is addressed to it. -/
def InputOK (voters : Finset Nat) (s : AbstractState) (i : Nat)
    (inp : Input) : Prop :=
  forall {m}, inp.message = some m ->
    m.type = .prop ∨ (m.toId = i ∧ MsgOK voters s m)

variable {voters : Finset Nat} {s s' : AbstractState} {i : Nat} {c c' : Core}
variable {inp : Input}

/-!
## Facts stay
-/

theorem MsgOK.grows (hc : CommitInv voters Entry.term s) (hg : Grows s s')
    {m : Message} (h : MsgOK voters s m) : MsgOK voters s' m := by
  refine ⟨h.left, ?_⟩
  have h := h.right
  cases htype : m.type with
  | prop => simp only [htype] at h
  | vote =>
      simp only [htype] at h ⊢
      rcases h with ⟨C, hC, hlen, hlast⟩
      exact ⟨C, hg.cand hC, hlen, hlast⟩
  | voteResp =>
      simp only [htype] at h ⊢
      exact fun hr => hg.votes (h hr)
  | app =>
      simp only [htype] at h ⊢
      rcases h with ⟨hne, ⟨Q, hlead⟩, j, hij, hj, hterm, hents, hcj, hcommit⟩
      have hpre := hg.termLog hlead
      refine ⟨hne, ⟨Q, hg.lead hlead⟩, j, hij,
        Nat.le_trans hj hpre.length_le, ?_, ?_, hcj, ?_⟩
      · rw [hterm, termAt_of_pre Entry.term hpre (Nat.le_trans hij hj)]
      · rw [hents, ← List.drop_take, ← List.drop_take,
          take_eq_of_pre hpre hj]
      · rcases hcommit with hzero | ⟨t, k, hch, ht, hk, htake⟩
        · exact Or.inl hzero
        · rcases (hc.chosen_ok hch).left with ⟨x, hx⟩
          refine Or.inr ⟨t, k, hg.chosen hch, ht, hk, ?_⟩
          rw [take_eq_of_pre hpre (Nat.le_trans hcj hj)]
          exact htake.trans (hg.termLog hx)
  | appResp =>
      simp only [htype] at h ⊢
      exact ⟨h.left, fun hr => hg.acks (h.right hr)⟩
  | timeoutNow =>
      simp only [htype] at h ⊢
      rcases h with ⟨hne, Q, hlead⟩
      exact ⟨hne, Q, hg.lead hlead⟩
  | preVote | preVoteResp | snap => simp only

theorem InputOK.grows (hc : CommitInv voters Entry.term s) (hg : Grows s s')
    (h : InputOK voters s i inp) : InputOK voters s' i inp := by
  intro m hm
  rcases h hm with hprop | ⟨hto, hok⟩
  · exact Or.inl hprop
  · exact Or.inr ⟨hto, hok.grows hc hg⟩

theorem InputOK.message (h : InputOK voters s i inp) {m : Message}
    (hm : inp.message = some m) (htype : m.type ≠ .prop) :
    m.toId = i ∧ MsgOK voters s m := by
  rcases h hm with hprop | hok
  · exact absurd hprop htype
  · exact hok

theorem NodeSim.grows (h : NodeSim voters s i c)
    (hc : CommitInv voters Entry.term s) (hg : Grows s s')
    (hterm : s'.term i = s.term i) (hlog : s'.log i = s.log i)
    (hcommit : s'.commit i = s.commit i) (hvotes : s'.votes i = s.votes i)
    (hlead : forall {t Q}, s'.lead t = some (i, Q) -> s.lead t = some (i, Q)) :
    NodeSim voters s' i c where
  id_eq := h.id_eq
  voters_nodup := h.voters_nodup
  voters_eq := h.voters_eq
  learners_nil := h.learners_nil
  term_eq := hterm.trans h.term_eq
  view := hlog ▸ h.view
  plain := hlog ▸ h.plain
  commit_eq := hcommit.trans h.commit_eq
  vote_of := fun hv => h.vote_of (hvotes ▸ hv)
  vote_some := fun hv => hvotes ▸ h.vote_some hv
  tally := fun hv => ⟨(h.tally hv).left, hg.votes (h.tally hv).right⟩
  lead_iff := by
    rw [h.lead_iff]
    constructor
    · rintro ⟨Q, hQ⟩
      exact ⟨Q, hg.lead hQ⟩
    · rintro ⟨Q, hQ⟩
      exact ⟨Q, hlead hQ⟩
  progress := h.progress
  matched := by
    intro hrole p
    rcases h.matched hrole p with hzero | ⟨j, hj, hack⟩
    · exact Or.inl hzero
    · exact Or.inr ⟨j, hj, hg.acks hack⟩
  applied_le := h.applied_le
  msgs_ok := fun hm => (h.msgs_ok hm).grows hc hg

theorem NodeSim.elsewhere (h : NodeSim voters s i c)
    (hc : CommitInv voters Entry.term s) (hg : Grows s s') {n : Nat}
    (he : Elsewhere n s s') (hne : i ≠ n) : NodeSim voters s' i c :=
  h.grows hc hg (he.term i hne) (he.log i hne) (he.commit i hne)
    (he.votes i hne) (he.lead hne)

theorem NodeSim.lead_of_role (h : NodeSim voters s i c)
    (hrole : c.role = .leader) : exists Q, s.lead (s.term i) = some (i, Q) := by
  rw [h.term_eq]
  exact h.lead_iff.mp hrole

theorem NodeSim.mem_voters (h : NodeSim voters s i c) {p : Nat} :
    p ∈ c.voters <-> p ∈ voters := by
  rw [← h.voters_eq, List.mem_toFinset]

theorem NodeSim.self_mem (h : NodeSim voters s i c) (hi : i ∈ voters) : c.id ∈ c.voters := by
  rw [h.id_eq]
  exact h.mem_voters.mpr hi

theorem NodeSim.quorum_eq (h : NodeSim voters s i c) :
    c.quorum = voters.card / 2 + 1 := by
  rw [Core.quorum, ← h.voters_eq, List.toFinset_card_of_nodup h.voters_nodup]

/-!
## Messages of a node
-/

theorem NodeSim.say (h : NodeSim voters s i c) {m : Message}
    (hm : MsgOK voters s (c.stamp m)) : NodeSim voters s i (c.say m) where
  __ := h
  msgs_ok := by
    intro m' hm'
    rcases List.mem_append.mp hm' with hm' | hm'
    · exact h.msgs_ok hm'
    · rw [List.mem_singleton.mp hm']
      exact hm

theorem MsgOK.of_notice {m : Message} (hfrom : m.fromId ∈ voters)
    (h : m.IsNotice) : MsgOK voters s m := by
  refine ⟨hfrom, ?_⟩
  rcases h with h | h | h | ⟨h, hr⟩
  · simp only [h]
  · simp only [h]
  · simp only [h]
  · simp only [h, hr, Bool.true_eq_false, false_implies]

/-!
## Transitions

The state after a transition of node `i` is matched when the protocol can move
to a state that the new core shows.
-/

def Matched (voters : Finset Nat) (s : AbstractState) (i : Nat) (c : Core) :
    Prop :=
  exists s', Steps voters Entry.term i s s' ∧ Tidy s' ∧ NodeSim voters s' i c

theorem Matched.stay (htidy : Tidy s) (h : NodeSim voters s i c) :
    Matched voters s i c :=
  ⟨s, Relation.ReflTransGen.refl, htidy, h⟩

theorem Matched.step (hstep : Step voters Entry.term i s s') (htidy : Tidy s')
    (h : NodeSim voters s' i c) : Matched voters s i c :=
  ⟨s', Relation.ReflTransGen.single hstep, htidy, h⟩

section Transitions

variable (hinv : Inv voters Entry.term s) (htidy : Tidy s)
variable (h : NodeSim voters s i c)

include hinv h

theorem not_lead_above {t : Nat} (ht : c.term < t) {Q : Finset Nat} :
    s.lead t ≠ some (i, Q) := by
  intro hlead
  rcases hinv.log.lead_cand hlead with ⟨C, hC, _⟩
  have hle := hinv.vote.cand_le hC
  rw [h.term_eq] at hle
  lia

include htidy

theorem matched_adopt {t : Nat} (ht : c.term < t) :
    Matched voters s i
      { c with term := t, vote := 0, votes := ∅, role := .follower } := by
  have hlt : s.term i < t := by rw [h.term_eq]; exact ht
  have hstep : Step voters Entry.term i s _ := Step.adopt hlt
  have hg := Grows.of_step hinv.vote hinv.log hstep
  refine Matched.step hstep htidy
    { h with
      term_eq := by simp only [Function.update_self]
      vote_of := ?_
      vote_some := fun hv => absurd rfl hv
      tally := fun hv => by simp at hv
      lead_iff := ?_
      progress := fun hrole => by cases hrole
      matched := fun hrole => by cases hrole
      msgs_ok := fun hm => (h.msgs_ok hm).grows hinv.commit hg }
  · intro x hx
    have hle := hinv.vote.vote_le hx
    simp only at hle
    lia
  · constructor
    · intro hrole
      cases hrole
    · rintro ⟨Q, hQ⟩
      exact absurd hQ (not_lead_above hinv h ht)

theorem matched_campaign (hi : i ∈ voters) (hzero : 0 ∉ voters)
    {ms : List Message}
    (hms : forall m, m ∈ ms -> exists target lastTerm,
      target ≠ c.id ∧ c.log.lastTerm = .ok lastTerm ∧
        m = { c with term := c.term + 1 }.voteRequest target lastTerm) :
    Matched voters s i
      { c with
        term := c.term + 1
        role := .candidate
        vote := c.id
        votes := {c.id}
        msgs := c.msgs ++ ms } := by
  have hstep : Step voters Entry.term i s _ := Step.campaign
  have hg := Grows.of_step hinv.vote hinv.log hstep
  have hterm := h.term_eq
  have hid := h.id_eq
  rw [hterm] at hstep hg
  refine Matched.step hstep htidy
    { h with
      term_eq := by simp only [Function.update_self]
      vote_of := ?_
      vote_some := fun _ => Or.inr ⟨rfl, rfl, hid⟩
      tally := ?_
      lead_iff := ?_
      progress := fun hrole => by cases hrole
      matched := fun hrole => by cases hrole
      msgs_ok := ?_ }
  · rintro x (hx | ⟨_, _, rfl⟩)
    · have hle := hinv.vote.vote_le hx
      simp only at hle
      lia
    · exact ⟨hid, fun hx => hzero (hx ▸ hi)⟩
  · intro v hv
    rw [Finset.mem_singleton.mp hv, hid]
    exact ⟨hi, Or.inr ⟨rfl, rfl, rfl⟩⟩
  · constructor
    · intro hrole
      cases hrole
    · rintro ⟨Q, hQ⟩
      exact absurd hQ (not_lead_above hinv h (Nat.lt_succ_self _))
  · intro m hm
    rcases List.mem_append.mp hm with hm | hm
    · exact (h.msgs_ok hm).grows hinv.commit hg
    · rcases hms m hm with ⟨target, lastTerm, _, hlast, rfl⟩
      rw [h.view.lastTerm] at hlast
      cases hlast
      refine ⟨?_, s.log i, ?_, ?_, rfl⟩
      · change c.id ∈ voters
        rw [hid]
        exact hi
      · change Function.update s.cand (c.term + 1) _ (c.term + 1) c.id = _
        rw [hid]
        exact cand_update_self
      · exact h.view.lastIndex

theorem matched_grant (hi : i ∈ voters) (hzero : 0 ∉ voters) {m : Message}
    (hok : MsgOK voters s m) (htype : m.type = .vote)
    (hterm : m.term = c.term) (hvote : c.vote = 0 ∨ c.vote = m.fromId)
    (hup : c.log.isUpToDate m.logIndex m.logTerm = .ok true) :
    Matched voters s i
      ({ c with vote := m.fromId }.say
        { type := .voteResp, toId := m.fromId }) := by
  rcases hok with ⟨hfrom, hcand⟩
  simp only [htype] at hcand
  rcases hcand with ⟨C, hC, hlen, hlast⟩
  rw [hlen, hlast] at hup
  rw [hterm, ← h.term_eq] at hC
  have hfree : forall x, s.votes i (s.term i) x -> x = m.fromId := by
    intro x hx
    rw [h.term_eq] at hx
    rcases h.vote_of hx with ⟨hx, hne⟩
    rcases hvote with hnone | hsame
    · exact absurd (hx.symm.trans hnone) hne
    · exact hx.symm.trans hsame
  have hstep : Step voters Entry.term i s _ :=
    Step.grant hC (h.view.upToDate hup) hfree
  have hg := Grows.of_step hinv.vote hinv.log hstep
  rw [h.term_eq] at hstep hg
  refine Matched.step hstep htidy (NodeSim.say ?_ ?_)
  · exact
      { h with
        vote_of := by
          rintro x (hx | ⟨_, _, rfl⟩)
          · rcases h.vote_of hx with ⟨hx, hne⟩
            rcases hvote with hnone | hsame
            · exact absurd (hx.symm.trans hnone) hne
            · exact ⟨hsame.symm.trans hx, hne⟩
          · exact ⟨rfl, fun hx => hzero (hx ▸ hfrom)⟩
        vote_some := fun _ => Or.inr ⟨rfl, rfl, rfl⟩
        tally := fun hv => ⟨(h.tally hv).left, Or.inl (h.tally hv).right⟩
        msgs_ok := fun hm => (h.msgs_ok hm).grows hinv.commit hg }
  · rw [stamp_eq]
    refine ⟨?_, fun _ => Or.inr ⟨h.id_eq, rfl, rfl⟩⟩
    change c.id ∈ voters
    rw [h.id_eq]
    exact hi

theorem matched_lead (hrole : c.role = .candidate)
    (hquorum : c.quorum ≤ c.votes.card) :
    Matched voters s i
      { c with
        role := .leader
        roundReads := []
        pendingReads := []
        readAcks := ∅
        nextIndex := fun p =>
          if p ∈ c.voters ++ c.learners then some (c.log.lastIndex + 1)
          else none
        matchIndex := fun _ => 0 } := by
  have hQ : IsQuorum voters c.votes :=
    ⟨fun v hv => (h.tally hv).left, by rw [← h.quorum_eq]; exact hquorum⟩
  have hvotes : forall v, v ∈ c.votes -> s.votes v (s.term i) i := by
    intro v hv
    rw [h.term_eq]
    exact (h.tally hv).right
  have hcand : exists C, s.cand (s.term i) i = some C := by
    have hpos : 0 < c.votes.card :=
      Nat.lt_of_lt_of_le (Nat.succ_pos _) hquorum
    rcases Finset.card_pos.mp hpos with ⟨v, hv⟩
    exact hinv.vote.vote_cand (hvotes v hv)
  have hnone : s.lead (s.term i) = none := by
    cases hlead : s.lead (s.term i) with
    | none => rfl
    | some x =>
        rcases x with ⟨l, Q⟩
        have hl := hinv.log.lead_eq_of_votes hinv.vote hlead hQ hvotes
        subst hl
        rw [h.term_eq] at hlead
        rw [h.lead_iff.mpr ⟨Q, hlead⟩] at hrole
        cases hrole
  rcases hcand with ⟨C, hC⟩
  have hstep : Step voters Entry.term i s _ := Step.elect hC hnone hQ hvotes
  have hg := Grows.of_step hinv.vote hinv.log hstep
  refine Matched.step hstep ?_
    { h with
      lead_iff := ?_
      progress := ?_
      matched := fun _ _ => Or.inl rfl
      msgs_ok := fun hm => (h.msgs_ok hm).grows hinv.commit hg }
  · intro t x hlead
    by_cases ht : t = s.term i
    · subst ht
      simp only [Function.update_self]
      exact ⟨h.view.numbered, h.plain⟩
    · simp only [Function.update_of_ne ht] at hlead ⊢
      exact htidy hlead
  · simp only [true_iff]
    exact ⟨c.votes, by rw [← h.term_eq, Function.update_self]⟩
  · intro _ p hp
    refine ⟨c.log.lastIndex + 1, ?_, Nat.le_add_left 1 _⟩
    exact if_pos (List.mem_append_left _ (h.mem_voters.mpr hp))

theorem matched_append (hrole : c.role = .leader) {es : List Entry}
    {log : RaftLog} (hes : c.Appends inp es)
    (hlog : c.log.append es = .ok log) :
    Matched voters s i { c with log := log } := by
  rcases h.lead_of_role hrole with ⟨Q, hlead⟩
  have hterms : forall e, e ∈ es -> e.term = s.term i := by
    intro e he
    rcases List.getElem?_of_mem he with ⟨k, hk⟩
    rw [h.term_eq]
    exact (hes k e hk).right.left
  have hstep : Step voters Entry.term i s _ := Step.extend hlead hterms
  have hg := Grows.of_step hinv.vote hinv.log hstep
  have hindexes : forall k e, es[k]? = some e ->
      e.index = (s.log i).length + 1 + k := by
    intro k e hk
    rw [← h.view.lastIndex]
    exact (hes k e hk).left
  have hview := h.view.append hindexes hlog
  have hplain : forall e, e ∈ s.log i ++ es -> e.type = .normal := by
    intro e he
    rcases List.mem_append.mp he with he | he
    · exact h.plain e he
    · rcases List.getElem?_of_mem he with ⟨k, hk⟩
      exact (hes k e hk).right.right.left
  refine Matched.step hstep ?_
    { h with
      view := by simpa only [Function.update_self] using hview.left
      plain := by simpa only [Function.update_self] using hplain
      commit_eq := h.commit_eq.trans hview.right.right.left.symm
      applied_le := by
        simp only [hview.right.right.right]
        exact h.applied_le
      msgs_ok := fun hm => (h.msgs_ok hm).grows hinv.commit hg }
  intro t x hx
  by_cases ht : t = s.term i
  · subst ht
    simp only [Function.update_self]
    exact ⟨hview.left.numbered, hplain⟩
  · simp only [Function.update_of_ne ht]
    exact htidy hx

theorem matched_ownMatch (hrole : c.role = .leader) :
    Matched voters s i
      { c with
        matchIndex := Function.update c.matchIndex c.id
          (min c.stabled c.log.lastIndex) } := by
  rcases h.lead_of_role hrole with ⟨Q, hlead⟩
  have hle : min c.stabled c.log.lastIndex ≤ (s.log i).length := by
    rw [← h.view.lastIndex]
    exact Nat.min_le_right _ _
  have hstep : Step voters Entry.term i s _ := Step.selfAck hlead hle
  have hg := Grows.of_step hinv.vote hinv.log hstep
  have hsim := h.grows hinv.commit hg rfl rfl rfl rfl (fun hl => hl)
  refine Matched.step hstep htidy { hsim with matched := ?_ }
  intro hr p
  by_cases hp : p = c.id
  · subst hp
    simp only [Function.update_self]
    exact Or.inr ⟨_, Nat.le_refl _, Or.inr ⟨h.id_eq, h.term_eq.symm, rfl⟩⟩
  · simp only [Function.update_of_ne hp]
    exact hsim.matched hr p

theorem matched_commit (hrole : c.role = .leader) {k : Nat} {log : RaftLog}
    (hcount : c.quorum ≤ c.voters.countP (fun p => k ≤ c.matchIndex p))
    (hterm : c.log.term k = some c.term) (hlog : c.log.commitTo k = .ok log) :
    Matched voters s i { c with log := log } := by
  rcases h.lead_of_role hrole with ⟨Q, hlead⟩
  have hpos := hinv.log.lead_pos hinv.vote hlead
  rcases h.view.bounds_of_term hterm with ⟨_, hlen, hown⟩
  have hkpos : 1 ≤ k := by
    rcases k with _ | k
    · rw [h.term_eq, ← hown] at hpos
      exact hpos
    · lia
  have hR : IsQuorum voters (voters.filter fun p => k ≤ c.matchIndex p) := by
    refine ⟨Finset.filter_subset _ _, ?_⟩
    have heq : voters.filter (fun p => k ≤ c.matchIndex p) =
        (c.voters.filter fun p => k ≤ c.matchIndex p).toFinset := by
      ext p
      simp [h.mem_voters]
    rw [← h.quorum_eq, heq,
      List.toFinset_card_of_nodup (h.voters_nodup.filter _),
      ← List.countP_eq_length_filter]
    exact hcount
  have hacks : forall v, v ∈ voters.filter (fun p => k ≤ c.matchIndex p) ->
      exists j, k ≤ j ∧ s.acks v (s.term i) j := by
    intro v hv
    have hkv := (Finset.mem_filter.mp hv).right
    rw [h.term_eq]
    rcases h.matched hrole v with hzero | ⟨j, hj, hack⟩
    · lia
    · exact ⟨j, Nat.le_trans hkv hj, hack⟩
  have hstep := Step.choose hlead (by rw [hown, h.term_eq]) hR hacks
  have hg := Grows.of_step hinv.vote hinv.log hstep
  rcases h.view.commitTo hlen with ⟨log', hlog', hview, hcom, happ, _⟩
  rw [hlog] at hlog'
  cases hlog'
  exact Matched.step hstep htidy
    { h with
      view := hview
      commit_eq := by
        simp only [Function.update_self, hcom, h.commit_eq]
      applied_le := by
        simp only [happ]
        exact h.applied_le
      msgs_ok := fun hm => (h.msgs_ok hm).grows hinv.commit hg }

omit htidy in
/-- A message of the current leader finds the log of the node in agreement
with the leader's, up to the previous entry that the node knows. -/
theorem take_eq_of_prev {p pt : Nat} {x : Nat × Finset Nat}
    (hlead : s.lead (s.term i) = some x)
    (hp : p ≤ (s.termLog (s.term i)).length)
    (hpt : pt = termAt Entry.term (s.termLog (s.term i)) p)
    (hterm : c.log.term p = some pt) :
    p ≤ (s.log i).length ∧
      (s.log i).take p = (s.termLog (s.term i)).take p := by
  rcases h.view.bounds_of_term hterm with ⟨_, hlen, hown⟩
  refine ⟨hlen, ?_⟩
  cases p with
  | zero => rfl
  | succ k =>
      have hF : (s.log i)[k]? = some (s.log i)[k] :=
        List.getElem?_eq_getElem (by lia)
      have hT : (s.termLog (s.term i))[k]? = some (s.termLog (s.term i))[k] :=
        List.getElem?_eq_getElem (by lia)
      refine (hinv.log.log_fits i).matching (hinv.log.termLog_fits hlead)
        hF hT ?_
      rw [termAt_succ_of_getElem? Entry.term hF] at hown
      rw [termAt_succ_of_getElem? Entry.term hT] at hpt
      exact hown.trans hpt

theorem maybeAppend_cases {m : Message} (hok : MsgOK voters s m)
    (htype : m.type = .app) (hterm : m.term = c.term) :
    c.log.maybeAppend m.logIndex m.logTerm m.commit m.entries =
        .ok (none, c.log) ∨
      exists j log F, j ≤ (s.termLog c.term).length ∧ m.commit ≤ j ∧
        c.log.maybeAppend m.logIndex m.logTerm m.commit m.entries =
          .ok (some j, log) ∧
        View log F ∧ log.committed = max c.log.committed m.commit ∧
        log.applied = c.log.applied ∧
        ((s.termLog c.term).take j <+: s.log i ∧ F = s.log i ∨
          ¬ (s.termLog c.term).take j <+: s.log i ∧
            F = (s.termLog c.term).take j) := by
  have hmsg := hok.right
  simp only [htype] at hmsg
  rcases hmsg with ⟨_, ⟨Q, hlead⟩, j, hij, hj, hprev, hents, hcj, _⟩
  rw [RaftLog.maybeAppend]
  split
  · next hknown =>
      have hsame : m.term = s.term i := hterm.trans h.term_eq.symm
      rw [hsame] at hlead hj hprev hents
      rcases take_eq_of_prev hinv h hlead (Nat.le_trans hij hj) hprev hknown
        with ⟨hlen, htake⟩
      have hcommitted := hinv.commit_prefix_termLog hlead
      rw [h.commit_eq] at hcommitted
      rcases h.view.appendNew (htidy hlead).left
        (fun k e d hF hT heq =>
          (hinv.log.log_fits i).matching (hinv.log.termLog_fits hlead) hF hT heq)
        hcommitted htake hlen (h.view.bounds_of_term hknown).left hij hj with
        ⟨log1, F, hnew, hview, _, hcom, happ, hF⟩
      have hlast : m.logIndex + m.entries.length = j := by
        rw [hents, List.length_take, List.length_drop]
        lia
      have hFlen : j ≤ F.length := by
        have hTlen : ((s.termLog (s.term i)).take j).length = j := by
          rw [List.length_take]
          lia
        rcases hF with ⟨hpre, rfl⟩ | ⟨_, rfl⟩
        · rw [← hTlen]
          exact hpre.length_le
        · exact Nat.le_of_eq hTlen.symm
      rcases hview.commitTo (i := m.commit) (by lia) with
        ⟨log2, hto, hview2, hcom2, happ2, _⟩
      refine Or.inr ⟨j, log2, F, ?_, hcj, ?_, hview2, ?_, ?_, ?_⟩
      · rw [← h.term_eq]
        exact hj
      · rw [hlast]
        change (c.log.appendNew m.entries >>= fun l =>
          l.commitTo (min m.commit j) >>= fun l =>
            Except.ok (some j, l)) = _
        rw [Nat.min_eq_left hcj, hents, hnew]
        change (log1.commitTo m.commit >>= fun l =>
          Except.ok (some j, l)) = _
        rw [hto]
        rfl
      · rw [hcom2, hcom]
      · rw [happ2, happ]
      · rw [← h.term_eq]
        exact hF
  · exact Or.inl rfl

theorem matched_accept (hi : i ∈ voters) {m : Message} {lastNew : Nat}
    {log : RaftLog} (hok : MsgOK voters s m) (hto : m.toId = i)
    (htype : m.type = .app) (hterm : m.term = c.term)
    (hrole : c.role = .follower)
    (happ : c.log.maybeAppend m.logIndex m.logTerm m.commit m.entries =
      .ok (some lastNew, log)) :
    Matched voters s i
      ({ c with log := log }.say
        { type := .appResp, toId := m.fromId, logIndex := lastNew }) := by
  rcases maybeAppend_cases hinv htidy h hok htype hterm with hnone |
    ⟨j, log', F, hj, hcj, hsome, hview, hcom, happlied, hF⟩
  · rw [hnone] at happ
    cases happ
  rw [hsome] at happ
  cases happ
  have hmsg := hok.right
  simp only [htype] at hmsg
  rcases hmsg with ⟨hne, ⟨Q, hlead⟩, _, _, _, _, _, _, hcommit⟩
  rw [hto] at hne
  rw [hterm] at hlead hcommit
  have hlead' := hlead
  rw [← h.term_eq] at hlead' hj hF
  have hstep : Step voters Entry.term i s _ :=
    Step.accept hlead' (Ne.symm hne) hj hF
  have hg := Grows.of_step hinv.vote hinv.log hstep
  have hinv1 := hinv.step hstep
  have hpre : (s.termLog (s.term i)).take lastNew <+: F := by
    rcases hF with ⟨hpre, rfl⟩ | ⟨_, rfl⟩
    · exact hpre
    · exact List.prefix_refl _
  have hplain : forall e, e ∈ F -> e.type = .normal := by
    rcases hF with ⟨_, rfl⟩ | ⟨_, rfl⟩
    · exact h.plain
    · exact fun e he => (htidy hlead').right e (List.mem_of_mem_take he)
  have hlen : lastNew ≤ F.length := by
    have := hpre.length_le
    rw [List.length_take] at this
    lia
  have hresp : forall {s2 : AbstractState}, s2.acks i c.term lastNew ->
      MsgOK voters s2
        (({ c with log := log } : Core).stamp
          { type := .appResp, toId := m.fromId, logIndex := lastNew }) := by
    intro s2 hack
    rw [stamp_eq]
    refine ⟨?_, ?_, fun _ => ?_⟩
    · change c.id ∈ voters
      rw [h.id_eq]
      exact hi
    · change m.fromId ≠ c.id
      rw [h.id_eq]
      exact Ne.symm hne
    · change s2.acks c.id c.term lastNew
      rw [h.id_eq]
      exact hack
  have hsim : forall {s2 : AbstractState}, Grows s s2 ->
      s2.term = s.term -> s2.log i = F -> s2.commit i = log.committed ->
      s2.votes = s.votes -> s2.lead = s.lead ->
      NodeSim voters s2 i { c with log := log } := by
    intro s2 hgrow hterm2 hlog2 hcommit2 hvotes2 hlead2
    exact
      { h with
        term_eq := by rw [hterm2]; exact h.term_eq
        view := hlog2 ▸ hview
        plain := hlog2 ▸ hplain
        commit_eq := hcommit2
        vote_of := by rw [hvotes2]; exact h.vote_of
        vote_some := by rw [hvotes2]; exact h.vote_some
        tally := by rw [hvotes2]; exact h.tally
        lead_iff := by rw [hlead2]; exact h.lead_iff
        matched := fun hr => by rw [hrole] at hr; cases hr
        applied_le := by
          change log.applied ≤ c.stabled
          rw [happlied]
          exact h.applied_le
        msgs_ok := fun hm => (h.msgs_ok hm).grows hinv.commit hgrow }
  rcases hcommit with hzero | ⟨t, k, hch, ht, hk, htake⟩
  · refine Matched.step hstep htidy (NodeSim.say (hsim hg rfl ?_ ?_ rfl rfl)
      (hresp (Or.inr ⟨rfl, h.term_eq.symm, rfl⟩)))
    · simp only [Function.update_self]
    · change s.commit i = log.committed
      rw [hcom, hzero, Nat.max_zero, h.commit_eq]
  · let s1 : AbstractState :=
      { s with
        log := Function.update s.log i F
        acks := fun v t k =>
          s.acks v t k ∨ (v = i ∧ t = s.term i ∧ k = lastNew) }
    have hlog1 : s1.log i = F := Function.update_self ..
    have hprefix : (s1.log i).take m.commit <+: s1.termLog t := by
      have hshort : F.take m.commit =
          (s.termLog (s.term i)).take m.commit := by
        rw [take_eq_of_pre hpre (by rw [List.length_take]; lia),
          List.take_take, Nat.min_eq_left hcj]
      rw [hlog1, hshort, h.term_eq]
      exact htake
    have hlearn : Step voters Entry.term i s1 _ :=
      Step.learn hch (Nat.le_trans ht (Nat.le_of_eq h.term_eq.symm)) hk
        (by rw [hlog1]; lia) hprefix
    have hg2 := hg.trans (Grows.of_step hinv1.vote hinv1.log hlearn)
    refine ⟨_, (Relation.ReflTransGen.single hstep).tail hlearn, htidy,
      NodeSim.say (hsim hg2 rfl ?_ ?_ rfl rfl)
        (hresp (Or.inr ⟨rfl, h.term_eq.symm, rfl⟩))⟩
    · exact hlog1
    · change Function.update s.commit i (max (s.commit i) m.commit) i = _
      rw [Function.update_self, hcom, h.commit_eq]

theorem matched_sendApp (hi : i ∈ voters) (hrole : c.role = .leader)
    {p next prevTerm : Nat} {ents : List Entry} (hp : p ≠ c.id)
    (hnext : 1 ≤ next) (hterm : c.log.term (next - 1) = some prevTerm)
    (hents : c.log.slice next (c.log.lastIndex + 1) = .ok ents) :
    Matched voters s i (c.say (c.appendRequest p next prevTerm ents)) := by
  rcases h.lead_of_role hrole with ⟨Q, hlead⟩
  have hown := hinv.log.lead_log hlead
  rcases h.view.bounds_of_term hterm with ⟨hsnap, hlen, hprev⟩
  have hslice := h.view.slice hsnap hlen (Nat.le_refl _)
  rw [Nat.sub_add_cancel hnext, ← h.view.lastIndex, hents] at hslice
  cases hslice
  have hcommitted := h.view.committed_le
  have hcommit := hinv.commit.commit_ok i
  rw [h.commit_eq, h.term_eq] at hcommit
  rw [h.term_eq] at hlead hown
  refine Matched.stay htidy (h.say ?_)
  rw [stamp_eq]
  refine ⟨?_, ?_, ⟨Q, ?_⟩, (s.log i).length, hlen, ?_, ?_, ?_, ?_, ?_⟩
  · change c.id ∈ voters
    rw [h.id_eq]
    exact hi
  · exact hp
  · change s.lead c.term = some (c.id, Q)
    rw [h.id_eq]
    exact hlead
  · change (s.log i).length ≤ (s.termLog c.term).length
    rw [hown]
  · change prevTerm = termAt Entry.term (s.termLog c.term) (next - 1)
    rw [← hown, hprev]
  · change ((s.log i).drop (next - 1)).take (c.log.lastIndex - (next - 1)) =
      ((s.termLog c.term).drop (next - 1)).take
        ((s.log i).length - (next - 1))
    rw [← hown, h.view.lastIndex]
  · change min c.log.committed _ ≤ (s.log i).length
    lia
  · have hmin : min c.log.committed (next - 1 +
        (((s.log i).drop (next - 1)).take
          (c.log.lastIndex - (next - 1))).length) = c.log.committed := by
      rw [List.length_take, List.length_drop, h.view.lastIndex]
      lia
    change min c.log.committed _ = 0 ∨ exists t k, s.chosen t k ∧ t ≤ c.term ∧
      min c.log.committed _ ≤ k ∧
      (s.termLog c.term).take (min c.log.committed _) <+: s.termLog t
    rw [hmin, ← hown]
    exact hcommit

omit hinv htidy in
theorem ne_of_sendsTo (hinput : InputOK voters s i inp) {p : Nat}
    (hp : c.SendsTo inp p) : p ≠ c.id := by
  rcases hp with hne | ⟨m, hm, htype, rfl⟩
  · exact hne
  · rcases hinput.message hm (by rw [htype]; decide) with ⟨hto, _, hok⟩
    simp only [htype] at hok
    rw [h.id_eq, ← hto]
    exact Ne.symm hok.left

/-- Every small transition of a node is matched by the protocol. -/
theorem matched_move (hzero : 0 ∉ voters) (hi : i ∈ voters)
    (hinput : InputOK voters s i inp) (hmove : Move inp c c') :
    Matched voters s i c' := by
  have hid := h.id_eq
  have hself : c.id ∈ voters := by rw [hid]; exact hi
  cases hmove with
  | adopt ht => exact matched_adopt hinv htidy h ht
  | campaign hrole hms => exact matched_campaign hinv htidy h hi hzero hms
  | preCampaign hrole =>
      refine Matched.stay htidy
        { h with
          lead_iff := ?_
          progress := fun hr => by cases hr
          matched := fun hr => by cases hr }
      rw [← h.lead_iff]
      constructor
      · intro hr
        cases hr
      · exact fun hr => absurd hr hrole
  | notice hms =>
      refine Matched.stay htidy { h with msgs_ok := ?_ }
      intro m hm
      rcases List.mem_append.mp hm with hm | hm
      · exact h.msgs_ok hm
      · rcases hms m hm with ⟨hnotice, hfrom⟩
        exact MsgOK.of_notice (by rw [hfrom]; exact hself) hnotice
  | grant hm htype hterm hvote hup =>
      have hok := (hinput.message hm (by rw [htype]; decide)).right
      exact matched_grant hinv htidy h hi hzero hok htype hterm hvote hup
  | tally hm htype hterm hrole hreject hmem =>
      rename_i m
      rcases hinput.message hm (by rw [htype]; decide) with ⟨hto, hfrom, hvote⟩
      simp only [htype] at hvote
      refine Matched.stay htidy { h with tally := ?_ }
      intro v hv
      rcases Finset.mem_insert.mp hv with rfl | hv
      · have hvote := hvote hreject
        rw [hterm, hto] at hvote
        exact ⟨hfrom, hvote⟩
      · exact h.tally hv
  | lead hrole hquorum => exact matched_lead hinv htidy h hrole hquorum
  | append hrole hes hlog => exact matched_append hinv htidy h hrole hes hlog
  | ownMatch hrole => exact matched_ownMatch hinv htidy h hrole
  | commit hrole hcount hterm hlog =>
      exact matched_commit hinv htidy h hrole hcount hterm hlog
  | ack hm htype hterm hrole hreject =>
      rename_i m
      rcases hinput.message hm (by rw [htype]; decide) with ⟨hto, hfrom, hack⟩
      simp only [htype] at hack
      refine Matched.stay htidy { h with progress := ?_, matched := ?_ }
      · intro hr p hp
        by_cases hpm : p = m.fromId
        · subst hpm
          exact ⟨m.logIndex + 1, Function.update_self .., Nat.le_add_left 1 _⟩
        · simp only [Function.update_of_ne hpm]
          exact h.progress hr hp
      · intro hr p
        by_cases hpm : p = m.fromId
        · subst hpm
          simp only [Function.update_self]
          rw [← hterm]
          exact Or.inr ⟨_, Nat.le_refl _, hack.right hreject⟩
        · simp only [Function.update_of_ne hpm]
          exact h.matched hr p
  | setNext hx =>
      rename_i q x
      refine Matched.stay htidy { h with progress := ?_ }
      intro hr p hp
      by_cases hpq : p = q
      · subst hpq
        exact ⟨x, Function.update_self .., hx⟩
      · simp only [Function.update_of_ne hpq]
        exact h.progress hr hp
  | sendApp hrole hp hnext hterm hents =>
      exact matched_sendApp hinv htidy h hi hrole
        (ne_of_sendsTo h hinput hp) hnext hterm hents
  | timeoutNow hrole hp =>
      rcases h.lead_iff.mp hrole with ⟨Q, hlead⟩
      refine Matched.stay htidy (h.say ?_)
      rw [stamp_eq]
      refine ⟨hself, ne_of_sendsTo h hinput hp, Q, ?_⟩
      rw [← hid] at hlead
      exact hlead
  | follow hm htype hterm =>
      rename_i m
      rcases hinput.message hm (by rw [htype]; decide) with ⟨hto, _, hok⟩
      simp only [htype] at hok
      rcases hok with ⟨hne, ⟨Q, hlead⟩, _⟩
      refine Matched.stay htidy
        { h with
          lead_iff := ?_
          progress := fun hr => by cases hr
          matched := fun hr => by cases hr }
      constructor
      · intro hr
        cases hr
      · rintro ⟨Q', hQ'⟩
        rw [← hterm, hlead] at hQ'
        cases hQ'
        exact absurd hto hne
  | accept hm htype hterm hrole happ =>
      rcases hinput.message hm (by rw [htype]; decide) with ⟨hto, hok⟩
      exact matched_accept hinv htidy h hi hok hto htype hterm hrole happ
  | refuse hm htype hterm hrole =>
      rename_i m hint
      rcases hinput.message hm (by rw [htype]; decide) with ⟨hto, _, hok⟩
      simp only [htype] at hok
      refine Matched.stay htidy (h.say ?_)
      rw [stamp_eq]
      refine ⟨hself, ?_, fun hr => by cases hr⟩
      change m.fromId ≠ c.id
      rw [hid, ← hto]
      exact Ne.symm hok.left
  | openRound | rearm | countAck | closeRound => exact Matched.stay htidy { h with }

/-- No node of a cluster gets stuck. -/
theorem not_stuck (hi : i ∈ voters) (hinput : InputOK voters s i inp) :
    ¬ Stuck inp c := by
  intro hstuck
  cases hstuck with
  | noVoters hnone =>
      have hmem := h.mem_voters.mpr hi
      rw [hnone] at hmem
      cases hmem
  | noProgress hrole hpeer hzero =>
      rename_i p
      have hmem : p ∈ voters := by
        rcases hpeer with hpeer | ⟨m, hm, htype, rfl⟩
        · rw [h.learners_nil, List.append_nil] at hpeer
          exact h.mem_voters.mp hpeer
        · exact (hinput.message hm (by rw [htype]; decide)).right.left
      rcases h.progress hrole hmem with ⟨x, hx, hpos⟩
      have := hzero x hx
      lia
  | leaderTimeout hm htype hterm hrole =>
      rcases hinput.message hm (by rw [htype]; decide) with ⟨hto, _, hok⟩
      simp only [htype] at hok
      rcases hok with ⟨hne, Q, hlead⟩
      rcases h.lead_iff.mp hrole with ⟨Q', hQ'⟩
      rw [← hterm, hlead] at hQ'
      cases hQ'
      exact hne hto
  | badAppend hm htype hterm hrole hbad =>
      have hok := (hinput.message hm (by rw [htype]; decide)).right
      rcases maybeAppend_cases hinv htidy h hok htype hterm with hnone |
        ⟨_, _, _, _, _, hsome, _⟩
      · rw [hnone] at hbad
        cases hbad
      · rw [hsome] at hbad
        cases hbad

end Transitions

end Raft
end Basalt
