import Basalt.Raft.Acts
import Basalt.Raft.PreVote
import Basalt.Raft.StateMachineSafety

/-!
# Which round an answer belongs to

A node opens a pre-vote round when it campaigns, and counts the answers until it
has a quorum.  The messages carry no number of the round.  Next to the cluster
the model counts the rounds of every node and keeps for every message the round
it was sent in, or answers to.
-/

namespace Basalt
namespace Raft

open Lib Lib.ReplicatedLog

namespace Node

def Probing (n : Node) : Prop :=
  n.role = .candidate ∧ n.votes = ∅

instance (n : Node) : Decidable n.Probing :=
  inferInstanceAs (Decidable (_ ∧ _))

/-!
## Operations outside the rounds

No operation but a campaign opens a round, sends a probe or starts a tally, and
only a probe is answered with a pre-vote.
-/

structure Quiet (n n' : Node) : Prop where
  sent : exists ms, n'.msgs = n.msgs ++ ms ∧
    forall m, m ∈ ms -> m.type ≠ .preVote ∧ m.type ≠ .preVoteResp
  probing : n'.Probing -> n.Probing ∧ n'.term = n.term ∧ n'.preVotes = n.preVotes

variable {n n' n'' : Node} {m : Message}

namespace Quiet

theorem of_msgs (hmsgs : n'.msgs = n.msgs)
    (hprobing : n'.Probing -> n.Probing ∧ n'.term = n.term ∧ n'.preVotes = n.preVotes) :
    Quiet n n' := by
  refine ⟨⟨[], ?_, ?_⟩, hprobing⟩
  · rw [hmsgs, List.append_nil]
  · intro m hm
    cases hm

theorem refl (n : Node) : Quiet n n :=
  of_msgs rfl fun h => ⟨h, rfl, rfl⟩

theorem trans (h : Quiet n n') (h' : Quiet n' n'') : Quiet n n'' := by
  constructor
  · rcases h.sent with ⟨ms, hmsgs, hms⟩
    rcases h'.sent with ⟨ms', hmsgs', hms'⟩
    refine ⟨ms ++ ms', ?_, ?_⟩
    · rw [hmsgs', hmsgs, List.append_assoc]
    · intro m hm
      rcases List.mem_append.mp hm with hm | hm
      · exact hms m hm
      · exact hms' m hm
  · intro hprobing
    rcases h'.probing hprobing with ⟨hmid, hterm', hvotes'⟩
    rcases h.probing hmid with ⟨hstart, hterm, hvotes⟩
    exact ⟨hstart, hterm'.trans hterm, hvotes'.trans hvotes⟩

theorem of_core (hcore : n'.core = n.core) (hvotes : n'.preVotes = n.preVotes) :
    Quiet n n' := by
  refine of_msgs (congrArg Core.msgs hcore) fun h => ⟨?_, congrArg Core.term hcore, hvotes⟩
  exact ⟨(congrArg Core.role hcore).symm.trans h.left,
    (congrArg Core.votes hcore).symm.trans h.right⟩

theorem of_replicates (h : Replicates n n') : Quiet n n' := by
  rcases h with ⟨ms, next, matched, log, rfl, hms⟩
  refine ⟨⟨ms, rfl, ?_⟩, fun h => ⟨h, rfl, rfl⟩⟩
  intro m hm
  rcases hms m hm with htype | htype
  · rw [htype]
    decide
  · rw [htype]
    decide

theorem of_act {scope : Scope} (hprobes : scope.probes = false) (h : Act scope n n') :
    Quiet n n' := by
  cases h with
  | aside hcore hvotes _ => exact of_core hcore hvotes
  | say _ _ hprobe hanswer =>
      rename_i said _ _
      refine ⟨⟨[n.core.stamp said], rfl, ?_⟩, fun h => ⟨h, rfl, rfl⟩⟩
      intro m hm
      rw [List.mem_singleton.mp hm, stamp_type]
      exact ⟨hprobe, hanswer⟩
  | follow hrole _ hholds =>
      refine of_msgs hholds.msgs fun hprobing => ?_
      cases hrole.symm.trans hprobing.left
  | stand _ _ _ hvotes _ hholds =>
      exact of_msgs hholds.msgs fun hprobing => absurd hprobing.right hvotes
  | elect _ hvotes => exact of_msgs rfl fun hprobing => absurd hprobing.right hvotes
  | lead => exact of_msgs rfl fun hprobing => (by cases hprobing.left)
  | commit hr => exact of_replicates (maybeCommit_replicates hr)
  | replicate _ _ _ hsent => exact of_replicates (sendAppend_replicates hsent)
  | renew =>
      rename_i sender _ _
      refine of_core (core_renewLeaseAck n sender) ?_
      unfold renewLeaseAck
      dsimp only
      split
      · rfl
      · rfl
  | preCampaign hprobe | tally hprobe | probe hprobe =>
      rw [hprobes] at hprobe
      cases hprobe
  | _ => exact of_msgs rfl fun h => ⟨h, rfl, rfl⟩

theorem of_acts {scope : Scope} (hprobes : scope.probes = false) (h : Acts scope n n') :
    Quiet n n' := by
  induction h with
  | refl => exact refl n
  | tail _ hlast ih => exact ih.trans (of_act hprobes hlast)

theorem of_quietActs (h : Acts {} n n') : Quiet n n' :=
  of_acts rfl h

end Quiet

theorem step_quiet {r : Option ProposeError × Node} (hprobe : m.type ≠ .preVote)
    (hanswer : m.type ≠ .preVoteResp) (h : n.step m = .ok r) : Quiet n r.2 := by
  rcases step_acts h hprobe hanswer with hacts | ⟨_, _, hhandled⟩
  · exact Quiet.of_quietActs (hacts {})
  · have hrecorded : Quiet n (n.recorded m) := by
      unfold recorded
      split
      · split
        · exact Quiet.of_msgs rfl fun h => ⟨h, rfl, rfl⟩
        · exact Quiet.refl n
      · split
        · exact Quiet.of_msgs rfl fun h => ⟨h, rfl, rfl⟩
        · exact Quiet.refl n
    rcases handleAppResp_acts hhandled with hsame | ⟨_, ⟨_, hsent⟩ | ⟨_, hacts⟩⟩
    · rw [hsame]
      exact Quiet.refl n
    · exact hrecorded.trans (Quiet.of_replicates (sendAppend_replicates hsent))
    · exact hrecorded.trans (Quiet.of_acts rfl hacts)

theorem initProgress_quiet (n : Node) (id : Nat) : Quiet n (n.initProgress id) := by
  unfold initProgress
  split
  · exact Quiet.refl n
  · split
    · exact Quiet.refl n
    · exact Quiet.of_msgs rfl fun h => ⟨h, rfl, rfl⟩

theorem applyConfEntry_quiet (n : Node) (e : Entry) : Quiet n (n.applyConfEntry e) := by
  have hset : forall voters learners, Quiet n { n with voters := voters, learners := learners } :=
    fun _ _ => Quiet.of_msgs rfl fun h => ⟨h, rfl, rfl⟩
  unfold applyConfEntry
  split
  · split
    · unfold applyConfChange
      split
      · exact (hset _ _).trans (initProgress_quiet _ _)
      · split
        · exact Quiet.refl n
        · exact (hset n.voters _).trans (initProgress_quiet _ _)
      · exact Quiet.of_msgs rfl fun h => ⟨h, rfl, rfl⟩
      · exact Quiet.refl n
    · exact Quiet.refl n
  · exact Quiet.refl n

theorem advance_quiet {rd : Ready} (h : n.advance rd = .ok n') : Quiet n n' := by
  rcases advance_acts h with ⟨stable, hfirst, _, hlast⟩
  have hconf : forall (es : List Entry) (k : Node), Quiet k (es.foldl applyConfEntry k) := by
    intro es
    induction es with
    | nil => exact fun k => Quiet.refl k
    | cons e es ih => exact fun k => (applyConfEntry_quiet k e).trans (ih _)
  exact ((Quiet.of_quietActs hfirst).trans (hconf _ stable)).trans (Quiet.of_quietActs hlast)

/-!
## Rounds
-/

theorem campaign_opens (hvoter : n.id ∈ n.voters) (hrole : n.role ≠ .leader)
    (h : n.campaign = .ok n') :
    exists ms, n'.msgs = n.msgs ++ ms ∧
      (forall m, m ∈ ms -> m.type ≠ .preVoteResp ∧
        (m.type = .preVote -> m.fromId = n.id ∧ m.term = n.term + 1)) ∧
      (n'.Probing -> n'.term = n.term ∧ n'.preVotes = {n.id}) := by
  by_cases hquorum : n.quorum = 1
  · rcases campaign_contests hvoter hrole hquorum with ⟨last, hlast, _, hidle⟩
    rcases campaign_eq_startElection hvoter hrole hquorum with ⟨opened, hopened, hcore⟩
    have hcandidate : opened.role = .candidate := congrArg Core.role hcore
    have hacts : Acts {} opened n' :=
      startElection_acts (hopened.symm.trans h) (by simp [hcandidate]) (Or.inl hcandidate)
    rw [h] at hlast
    cases hlast
    rcases (Quiet.of_quietActs hacts).sent with ⟨ms, hmsgs, hms⟩
    refine ⟨ms, ?_, ?_, ?_⟩
    · rw [hmsgs, show opened.msgs = n.msgs from congrArg Core.msgs hcore]
    · intro m hm
      exact ⟨(hms m hm).right, fun htype => absurd htype (hms m hm).left⟩
    · intro hprobing
      rcases hidle with hidle | hidle
      · exact absurd hprobing.left hidle
      · exact absurd hprobing.right hidle
  · rcases n.log.lastTerm_ok with ⟨lastTerm, hlast⟩
    rcases campaign_asks hvoter hrole hquorum hlast with ⟨asked, hasked, hpre, hcore⟩
    rw [h] at hasked
    cases hasked
    refine ⟨n.voteProbes lastTerm, congrArg Core.msgs hcore, ?_, ?_⟩
    · intro m hm
      rcases List.mem_map.mp hm with ⟨p, _, rfl⟩
      exact ⟨by simp [voteProbe], fun _ => ⟨rfl, rfl⟩⟩
    · intro _
      exact ⟨congrArg Core.term hcore, hpre⟩

def counted (n : Node) (m : Message) : Finset Nat :=
  if !m.reject ∧ m.fromId ∈ n.voters then insert m.fromId n.preVotes else n.preVotes

theorem handlePreVoteResp_cases (hvoter : n.id ∈ n.voters) (h : n.handlePreVoteResp m = .ok n') :
    (¬ n.Probing ∧ n' = n) ∨ (n.Probing ∧ n' = { n with preVotes := n.counted m }) ∨
      (n.Probing ∧ n.quorum ≤ (n.counted m).card ∧ Quiet n n' ∧ ¬ n'.Probing ∧
        n'.term = n.term + 1) := by
  unfold handlePreVoteResp at h
  split at h
  · next hidle =>
      cases h
      refine Or.inl ⟨?_, rfl⟩
      rintro ⟨hrole, hvotes⟩
      rcases hidle with hidle | hidle
      · exact hidle hrole
      · exact hidle hvotes
  · next hguard =>
      rw [not_or, not_not, not_not] at hguard
      let tallied : Node := { n with preVotes := n.counted m }
      have htally : (if !m.reject ∧ m.fromId ∈ n.voters then
          { n with preVotes := insert m.fromId n.preVotes } else n) = tallied := by
        show _ = { n with preVotes := n.counted m }
        unfold counted
        split
        · rfl
        · rfl
      dsimp only at h
      rw [htally] at h
      refine Or.inr ?_
      split at h
      · next hquorum =>
          have hrole : tallied.role ≠ .leader := by
            show n.role ≠ .leader
            rw [hguard.left]
            decide
          rcases startElection_contests (n := tallied) hvoter hrole with
            ⟨last, hlast, hcontests, hidle⟩
          rw [h] at hlast
          cases hlast
          refine Or.inr ⟨hguard, hquorum, ?_, ?_, hcontests.left⟩
          · have hacts : Acts {} tallied n' := startElection_acts h hrole (Or.inl hguard.left)
            rcases (Quiet.of_quietActs hacts).sent with ⟨ms, hmsgs, hms⟩
            refine ⟨⟨ms, hmsgs, hms⟩, fun hprobing => ?_⟩
            rcases hidle with hidle | hidle
            · exact absurd hprobing.left hidle
            · exact absurd hprobing.right hidle
          · rintro ⟨hrole', hvotes⟩
            rcases hidle with hidle | hidle
            · exact hidle hrole'
            · exact hidle hvotes
      · exact Or.inl ⟨hguard, (Except.ok.inj h).symm⟩

end Node

/-!
## Numbered rounds
-/

/-- A cluster with the number of the current round of every node.  `queued` and
`sent` go along with the messages that wait in a node and in the network. -/
structure ProbeRun where
  cluster : Cluster
  round : Nat -> Nat := fun _ => 0
  queued : Nat -> List Nat := fun _ => []
  sent : List Nat := []

namespace ProbeRun

def label (g : ProbeRun) (cl : Cluster) (id round label : Nat) : ProbeRun where
  cluster := cl
  round := Function.update g.round id round
  queued := Function.update g.queued id (g.queued id ++
    List.replicate ((cl.nodes id).msgs.length - (g.cluster.nodes id).msgs.length) label)
  sent := g.sent

/-- A campaign opens a round, and an answer belongs to the round of the probe. -/
def follow (g : ProbeRun) (cl : Cluster) : Action -> ProbeRun
  | .tick id =>
      let round := if (g.cluster.nodes id).TimesOut then g.round id + 1 else g.round id
      g.label cl id round round
  | .campaign id => g.label cl id (g.round id + 1) (g.round id + 1)
  | .propose id _ | .transferLeader id _ | .readIndex id _ | .compactTo id _ =>
      g.label cl id (g.round id) (g.round id)
  | .ready id =>
      { g with
        cluster := cl
        queued := Function.update g.queued id
          (List.replicate (cl.nodes id).msgs.length (g.round id))
        sent := g.sent ++ g.queued id }
  | .deliver k =>
      match g.cluster.network[k]? with
      | none => { g with cluster := cl }
      | some m =>
          g.label cl m.toId (g.round m.toId)
            (if m.type = .preVote then (g.sent[k]?).getD 0 else g.round m.toId)

def exec (g : ProbeRun) (a : Action) : Except Panic ProbeRun := do
  let cl <- g.cluster.exec a
  pure (g.follow cl a)

/-- A granted answer that a node counts belongs to its current round. -/
def Current (g : ProbeRun) : Action -> Prop
  | .deliver k =>
      forall m, m ∈ g.cluster.network[k]? -> m.type = .preVoteResp -> m.reject = false ->
        (g.cluster.nodes m.toId).Probing -> g.sent[k]? = some (g.round m.toId)
  | _ => True

instance (g : ProbeRun) (a : Action) : Decidable (g.Current a) :=
  match a with
  | .deliver k =>
      inferInstanceAs (Decidable (forall m, m ∈ g.cluster.network[k]? ->
        m.type = .preVoteResp -> m.reject = false -> (g.cluster.nodes m.toId).Probing ->
        g.sent[k]? = some (g.round m.toId)))
  | .tick _ | .campaign _ | .propose _ _ | .transferLeader _ _ | .readIndex _ _
  | .ready _ | .compactTo _ _ => inferInstanceAs (Decidable True)

def Sent (g : ProbeRun) (m : Message) (r : Nat) : Prop :=
  (m, r) ∈ g.cluster.network.zip g.sent

/-- Voter `v` was asked in the current round of node `i` whether it would vote
in term `t`, and has said yes. -/
def GrantedInRound (g : ProbeRun) (i v t : Nat) : Prop :=
  (exists m, g.Sent m (g.round i) ∧
    m.type = .preVote ∧ m.fromId = i ∧ m.toId = v ∧ m.term = t) ∧
  exists m, g.Sent m (g.round i) ∧
    m.type = .preVoteResp ∧ m.reject = false ∧ m.fromId = v ∧ m.toId = i ∧ m.term = t

def BackedBy (voters : Finset Nat) (g : ProbeRun) (i t : Nat) : Prop :=
  exists Q, IsQuorum voters Q ∧ forall v, v ∈ Q -> v = i ∨ g.GrantedInRound i v t

end ProbeRun

/-!
## What the labels say
-/

/-- A probe has the label of a round of its sender, and the term of the round in
progress; an answer has the label of the probe. -/
structure LabelOK (g : ProbeRun) (m : Message) (r : Nat) : Prop where
  probe : m.type = .preVote -> m.term ≠ 0 ∧ r ≤ g.round m.fromId ∧
    (r = g.round m.fromId -> (g.cluster.nodes m.fromId).Probing ->
      m.term = (g.cluster.nodes m.fromId).term + 1)
  answer : m.type = .preVoteResp -> exists p, g.Sent p r ∧ p.type = .preVote ∧
    p.fromId = m.toId ∧ p.toId = m.fromId ∧ p.term = m.term

def Tallied (voters : Finset Nat) (g : ProbeRun) (i : Nat) (tally : Finset Nat) : Prop :=
  forall v, v ∈ tally -> v ∈ voters ∧ (v = i ∨ exists m, g.Sent m (g.round i) ∧
    m.type = .preVoteResp ∧ m.reject = false ∧ m.fromId = v ∧ m.toId = i)

structure ProbeInv (voters : Finset Nat) (g : ProbeRun) : Prop where
  sent_length : g.cluster.network.length = g.sent.length
  queued_length : forall i, i ∈ voters ->
    (g.cluster.nodes i).msgs.length = (g.queued i).length
  sent : forall m r, g.Sent m r -> LabelOK g m r
  queued : forall i, i ∈ voters -> forall m r,
    (m, r) ∈ (g.cluster.nodes i).msgs.zip (g.queued i) -> LabelOK g m r
  tally : forall i, i ∈ voters -> (g.cluster.nodes i).Probing ->
    Tallied voters g i (g.cluster.nodes i).preVotes

/-- What the labels rest on only grows, as long as no round is resumed. -/
structure Later (g g' : ProbeRun) : Prop where
  sent : forall m r, g.Sent m r -> g'.Sent m r
  round : forall i, g.round i ≤ g'.round i
  probing : forall i, g'.round i = g.round i -> (g'.cluster.nodes i).Probing ->
    (g.cluster.nodes i).Probing ∧ (g'.cluster.nodes i).term = (g.cluster.nodes i).term

variable {voters : Finset Nat} {g g' : ProbeRun} {m : Message} {r i : Nat}

theorem LabelOK.later (h : LabelOK g m r) (hlater : Later g g') : LabelOK g' m r := by
  constructor
  · intro htype
    rcases h.probe htype with ⟨hpos, hle, hterm⟩
    refine ⟨hpos, Nat.le_trans hle (hlater.round _), ?_⟩
    intro hr hprobing
    have hround := hlater.round m.fromId
    have hsame : g'.round m.fromId = g.round m.fromId := by lia
    rcases hlater.probing _ hsame hprobing with ⟨hbefore, hsameTerm⟩
    rw [hsameTerm]
    exact hterm (by lia) hbefore
  · intro htype
    rcases h.answer htype with ⟨p, hp, hrest⟩
    exact ⟨p, hlater.sent p r hp, hrest⟩

theorem Tallied.later {tally : Finset Nat} (h : Tallied voters g i tally) (hlater : Later g g')
    (hround : g'.round i = g.round i) : Tallied voters g' i tally := by
  intro v hv
  rcases h v hv with ⟨hvoter, hself | ⟨m, hm, hrest⟩⟩
  · exact ⟨hvoter, Or.inl hself⟩
  · refine ⟨hvoter, Or.inr ⟨m, ?_, hrest⟩⟩
    rw [hround]
    exact hlater.sent m _ hm

theorem LabelOK.of_type (hprobe : m.type ≠ .preVote) (hanswer : m.type ≠ .preVoteResp) :
    LabelOK g m r :=
  ⟨fun h => absurd h hprobe, fun h => absurd h hanswer⟩

theorem ProbeInv.label (h : ProbeInv voters g) (hi : i ∈ voters) {cl : Cluster} {n' : Node}
    {ms : List Message} {round label : Nat} (hnet : cl.network = g.cluster.network)
    (hnodes : cl.nodes = Function.update g.cluster.nodes i n')
    (hmsgs : n'.msgs = (g.cluster.nodes i).msgs ++ ms) (hround : g.round i ≤ round)
    (hprobing : round = g.round i -> n'.Probing ->
      (g.cluster.nodes i).Probing ∧ n'.term = (g.cluster.nodes i).term)
    (hms : forall m, m ∈ ms -> LabelOK (g.label cl i round label) m label)
    (htally : n'.Probing -> Tallied voters (g.label cl i round label) i n'.preVotes) :
    ProbeInv voters (g.label cl i round label) := by
  have hself : cl.nodes i = n' := by rw [hnodes, Function.update_self]
  have hother : forall {j}, j ≠ i -> cl.nodes j = g.cluster.nodes j := by
    intro j hj
    rw [hnodes, Function.update_of_ne hj]
  have hlater : Later g (g.label cl i round label) := by
    refine ⟨fun m r hm => ?_, fun j => ?_, fun j => ?_⟩
    · show (m, r) ∈ cl.network.zip g.sent
      rw [hnet]
      exact hm
    · show g.round j ≤ Function.update g.round i round j
      by_cases hj : j = i
      · rw [hj, Function.update_self]
        exact hround
      · rw [Function.update_of_ne hj]
    · show Function.update g.round i round j = g.round j -> (cl.nodes j).Probing -> _
      by_cases hj : j = i
      · rw [hj, Function.update_self, hself]
        show _ -> _ -> _ ∧ (cl.nodes i).term = _
        rw [hself]
        exact hprobing
      · rw [hother hj]
        show _ -> _ -> _ ∧ (cl.nodes j).term = _
        rw [hother hj]
        exact fun _ hj => ⟨hj, rfl⟩
  have hcount : (cl.nodes i).msgs.length - (g.cluster.nodes i).msgs.length = ms.length := by
    rw [hself, hmsgs, List.length_append]
    lia
  have hqueued : (g.label cl i round label).queued i =
      g.queued i ++ List.replicate ms.length label := by
    show Function.update _ _ _ _ = _
    rw [Function.update_self, hcount]
  have hqueued' : forall {j}, j ≠ i -> (g.label cl i round label).queued j = g.queued j :=
    fun hj => Function.update_of_ne hj _ _
  constructor
  · show cl.network.length = g.sent.length
    rw [hnet]
    exact h.sent_length
  · intro j hj
    show (cl.nodes j).msgs.length = _
    by_cases hji : j = i
    · rw [hji, hself, hqueued, hmsgs, List.length_append, List.length_append,
        List.length_replicate, h.queued_length i hi]
    · rw [hother hji, h.queued_length j hj, hqueued' hji]
  · intro m r hm
    refine (h.sent m r ?_).later hlater
    have hm : (m, r) ∈ cl.network.zip g.sent := hm
    rw [hnet] at hm
    exact hm
  · intro j hj m r hm
    change (m, r) ∈ (cl.nodes j).msgs.zip _ at hm
    by_cases hji : j = i
    · rw [hji, hself, hqueued, hmsgs, List.zip_append (h.queued_length i hi)] at hm
      rcases List.mem_append.mp hm with hm | hm
      · exact (h.queued i hi m r hm).later hlater
      · rcases List.of_mem_zip hm with ⟨hmem, hr⟩
        rw [List.eq_of_mem_replicate hr]
        exact hms m hmem
    · rw [hother hji, hqueued' hji] at hm
      exact (h.queued j hj m r hm).later hlater
  · intro j hj hprob
    change (cl.nodes j).Probing at hprob
    show Tallied voters _ j (cl.nodes j).preVotes
    by_cases hji : j = i
    · rw [hji, hself] at hprob ⊢
      exact htally hprob
    · rw [hother hji] at hprob ⊢
      refine (h.tally j hj hprob).later hlater ?_
      show Function.update _ _ _ _ = _
      rw [Function.update_of_ne hji]

section Steps

variable {cl : Cluster} {n' : Node} {tag : Nat}

theorem Tallied.label {tally : Finset Nat} (h : Tallied voters g i tally)
    (hnet : cl.network = g.cluster.network) :
    Tallied voters (g.label cl i (g.round i) tag) i tally := by
  unfold Tallied ProbeRun.Sent
  show forall v, v ∈ tally -> v ∈ voters ∧ (v = i ∨ exists m,
    (m, Function.update g.round i (g.round i) i) ∈ cl.network.zip g.sent ∧ _)
  rw [hnet, Function.update_self]
  exact h

theorem ProbeInv.quiet (h : ProbeInv voters g) (hi : i ∈ voters)
    (hnet : cl.network = g.cluster.network)
    (hnodes : cl.nodes = Function.update g.cluster.nodes i n')
    (hquiet : Node.Quiet (g.cluster.nodes i) n') :
    ProbeInv voters (g.label cl i (g.round i) tag) := by
  rcases hquiet.sent with ⟨ms, hmsgs, hms⟩
  refine h.label hi hnet hnodes hmsgs (Nat.le_refl _) ?_ ?_ ?_
  · intro _ hprobing
    rcases hquiet.probing hprobing with ⟨hbefore, hterm, _⟩
    exact ⟨hbefore, hterm⟩
  · intro m hm
    exact LabelOK.of_type (hms m hm).left (hms m hm).right
  · intro hprobing
    rcases hquiet.probing hprobing with ⟨hbefore, _, hvotes⟩
    rw [hvotes]
    exact (h.tally i hi hbefore).label hnet

theorem ProbeInv.campaign (h : ProbeInv voters g) (hi : i ∈ voters)
    (hnet : cl.network = g.cluster.network)
    (hnodes : cl.nodes = Function.update g.cluster.nodes i n') {n : Node}
    (hcore : n.core = (g.cluster.nodes i).core) (hid : n.id = i) (hvoter : n.id ∈ n.voters)
    (hrole : n.role ≠ .leader) (hcampaign : n.campaign = .ok n') :
    ProbeInv voters (g.label cl i (g.round i + 1) (g.round i + 1)) := by
  rcases Node.campaign_opens hvoter hrole hcampaign with ⟨ms, hmsgs, hms, hopen⟩
  have hmsgs' : n'.msgs = (g.cluster.nodes i).msgs ++ ms := by
    rw [hmsgs, show n.msgs = _ from congrArg Core.msgs hcore]
    rfl
  refine h.label hi hnet hnodes hmsgs' (Nat.le_succ _) (fun hround => by lia) ?_ ?_
  · intro m hm
    rcases hms m hm with ⟨hanswer, hprobe⟩
    refine ⟨fun htype => ?_, fun htype => absurd htype hanswer⟩
    rcases hprobe htype with ⟨hfrom, hterm⟩
    rw [hid] at hfrom
    refine ⟨by lia, ?_, ?_⟩
    · show g.round i + 1 ≤ Function.update g.round i (g.round i + 1) m.fromId
      rw [hfrom, Function.update_self]
    · intro _
      show (cl.nodes m.fromId).Probing -> m.term = (cl.nodes m.fromId).term + 1
      rw [hfrom, hnodes, Function.update_self, hterm]
      intro hprobing
      rw [(hopen hprobing).left]
  · intro hprobing v hv
    rw [(hopen hprobing).right, Finset.mem_singleton, hid] at hv
    rw [hv]
    exact ⟨hi, Or.inl rfl⟩

theorem ProbeInv.mem_sent (h : ProbeInv voters g) {k : Nat} (hm : g.cluster.network[k]? = some m) :
    exists r, g.sent[k]? = some r ∧ g.Sent m r := by
  rcases List.getElem?_eq_some_iff.mp hm with ⟨hk, _⟩
  have hk' : k < g.sent.length := by
    rw [← h.sent_length]
    exact hk
  refine ⟨g.sent[k], List.getElem?_eq_getElem hk', ?_⟩
  apply List.mem_of_getElem? (i := k)
  rw [List.getElem?_zip_eq_some]
  exact ⟨hm, List.getElem?_eq_getElem hk'⟩

theorem ProbeInv.answer (h : ProbeInv voters g) (hi : i ∈ voters)
    (hnet : cl.network = g.cluster.network)
    (hnodes : cl.nodes = Function.update g.cluster.nodes i n')
    (hid : (g.cluster.nodes i).id = i) (hsent : g.Sent m r) (htype : m.type = .preVote)
    (hto : m.toId = i) (hhandled : (g.cluster.nodes i).handlePreVote m = .ok n') :
    ProbeInv voters (g.label cl i (g.round i) r) := by
  have hanswer : exists reject, n' = (g.cluster.nodes i).send
      { type := .preVoteResp, toId := m.fromId, term := m.term, reject := reject } := by
    unfold Node.handlePreVote at hhandled
    split at hhandled
    · rcases bind_eq_ok.mp hhandled with ⟨upToDate, _, hpure⟩
      cases hpure
      exact ⟨!upToDate, rfl⟩
    · cases hhandled
      exact ⟨true, rfl⟩
  rcases hanswer with ⟨reject, rfl⟩
  refine h.label hi hnet hnodes rfl (Nat.le_refl _) (fun _ hprobing => ⟨hprobing, rfl⟩) ?_ ?_
  · intro a ha
    have ha : a = (g.cluster.nodes i).core.stamp
        { type := .preVoteResp, toId := m.fromId, term := m.term, reject := reject } :=
      List.mem_singleton.mp ha
    have hpos := ((h.sent m r hsent).probe htype).left
    rw [ha, stamp_eq, if_neg hpos]
    refine ⟨by simp, fun _ => ⟨m, ?_, htype, rfl, ?_, rfl⟩⟩
    · show (m, r) ∈ cl.network.zip g.sent
      rw [hnet]
      exact hsent
    · exact hto.trans hid.symm
  · intro hprobing
    exact (h.tally i hi hprobing).label hnet

theorem ProbeInv.counted (h : ProbeInv voters g) (hi : i ∈ voters)
    (hvoters : (g.cluster.nodes i).voters.toFinset = voters)
    (hprobing : (g.cluster.nodes i).Probing) (htype : m.type = .preVoteResp) (hto : m.toId = i)
    (hcurrent : m.reject = false -> g.Sent m (g.round i)) :
    Tallied voters g i ((g.cluster.nodes i).counted m) := by
  unfold Node.counted
  split
  · next hgrant =>
      intro v hv
      rcases Finset.mem_insert.mp hv with rfl | hv
      · have hreject : m.reject = false := by simpa using hgrant.left
        refine ⟨?_, Or.inr ⟨m, hcurrent hreject, htype, hreject, rfl, hto⟩⟩
        rw [← hvoters, List.mem_toFinset]
        exact hgrant.right
      · exact h.tally i hi hprobing v hv
  · exact h.tally i hi hprobing

theorem ProbeInv.ready (h : ProbeInv voters g) (hi : i ∈ voters)
    (hnet : cl.network = g.cluster.network ++ (g.cluster.nodes i).msgs)
    (hnodes : cl.nodes = Function.update g.cluster.nodes i n')
    (hquiet : Node.Quiet { g.cluster.nodes i with msgs := [] } n') :
    ProbeInv voters (g.follow cl (.ready i)) := by
  have hself : cl.nodes i = n' := by rw [hnodes, Function.update_self]
  have hother : forall {j}, j ≠ i -> cl.nodes j = g.cluster.nodes j := by
    intro j hj
    rw [hnodes, Function.update_of_ne hj]
  have hsent : forall m r, (g.follow cl (.ready i)).Sent m r <->
      g.Sent m r ∨ (m, r) ∈ (g.cluster.nodes i).msgs.zip (g.queued i) := by
    intro m r
    show (m, r) ∈ cl.network.zip (g.sent ++ g.queued i) <-> _
    rw [hnet, List.zip_append h.sent_length, List.mem_append]
    rfl
  have hlater : Later g (g.follow cl (.ready i)) := by
    refine ⟨fun m r hm => (hsent m r).mpr (Or.inl hm), fun j => Nat.le_refl _, fun j _ => ?_⟩
    show (cl.nodes j).Probing -> _ ∧ (cl.nodes j).term = _
    by_cases hj : j = i
    · rw [hj, hself]
      intro hprobing
      rcases hquiet.probing hprobing with ⟨hbefore, hterm, _⟩
      exact ⟨hbefore, hterm⟩
    · rw [hother hj]
      exact fun hprobing => ⟨hprobing, rfl⟩
  have hqueued : (g.follow cl (.ready i)).queued i =
      List.replicate (cl.nodes i).msgs.length (g.round i) := Function.update_self _ _ _
  have hqueued' : forall {j}, j ≠ i -> (g.follow cl (.ready i)).queued j = g.queued j :=
    fun hj => Function.update_of_ne hj _ _
  constructor
  · show cl.network.length = (g.sent ++ g.queued i).length
    rw [hnet, List.length_append, List.length_append, h.sent_length, h.queued_length i hi]
  · intro j hj
    show (cl.nodes j).msgs.length = _
    by_cases hji : j = i
    · rw [hji, hqueued, List.length_replicate]
    · rw [hother hji, hqueued' hji, h.queued_length j hj]
  · intro m r hm
    rcases (hsent m r).mp hm with hm | hm
    · exact (h.sent m r hm).later hlater
    · exact (h.queued i hi m r hm).later hlater
  · intro j hj m r hm
    change (m, r) ∈ (cl.nodes j).msgs.zip _ at hm
    by_cases hji : j = i
    · rw [hji, hself] at hm
      rcases hquiet.sent with ⟨ms, hmsgs, hms⟩
      have hmem : m ∈ ms := by
        have hm := (List.of_mem_zip hm).left
        rw [hmsgs] at hm
        exact hm
      exact LabelOK.of_type (hms m hmem).left (hms m hmem).right
    · rw [hother hji, hqueued' hji] at hm
      exact (h.queued j hj m r hm).later hlater
  · intro j hj
    show (cl.nodes j).Probing -> Tallied voters _ j (cl.nodes j).preVotes
    by_cases hji : j = i
    · rw [hji, hself]
      intro hprobing
      rcases hquiet.probing hprobing with ⟨hbefore, _, hvotes⟩
      rw [hvotes]
      exact (h.tally i hi hbefore).later hlater rfl
    · rw [hother hji]
      intro hprobing
      exact (h.tally j hj hprobing).later hlater rfl

end Steps

/-!
## Runs
-/

namespace ProbeRun

variable {cfg : ClusterConfig} {a : Action} {k : Nat}

theorem cluster_follow (g : ProbeRun) (cl : Cluster) (a : Action) :
    (g.follow cl a).cluster = cl := by
  unfold follow
  split
  · rfl
  · rfl
  · rfl
  · rfl
  · rfl
  · rfl
  · rfl
  · split
    · rfl
    · rfl

def Initial (cfg : ClusterConfig) (g : ProbeRun) : Prop :=
  cfg.Initial g.cluster ∧ g.sent = [] ∧ forall i, g.queued i = []

def Reachable (cfg : ClusterConfig) (g : ProbeRun) : Prop :=
  exists start, Initial cfg start ∧
    Reach exec (fun g a => cfg.Allowed g.cluster a ∧ g.Current a) start g

theorem inv_initial (h : Initial cfg g) : ProbeInv cfg.voters g := by
  rcases h with ⟨⟨hnodes, hnet, _⟩, hsent, hqueued⟩
  have hnone : forall m r, ¬ g.Sent m r := by
    intro m r hm
    unfold Sent at hm
    rw [hnet, List.zip_nil_left] at hm
    cases hm
  constructor
  · rw [hnet, hsent]
    rfl
  · intro i hi
    rw [hqueued, show (g.cluster.nodes i).msgs = [] from
      congrArg Core.msgs (Node.core_newNodeConfig (hnodes i hi))]
    rfl
  · intro m r hm
    exact absurd hm (hnone m r)
  · intro i _ m r hm
    rw [hqueued, List.zip_nil_right] at hm
    cases hm
  · intro i hi hprobing
    have hrole : (g.cluster.nodes i).role = .follower :=
      congrArg Core.role (Node.core_newNodeConfig (hnodes i hi))
    cases hrole.symm.trans hprobing.left

theorem inv_answered (h : ProbeInv cfg.voters g) {s : AbstractState}
    (hsim : ClusterSim cfg.voters s g.cluster) {n' : Node} (hi : m.toId ∈ cfg.voters)
    (htype : m.type = .preVoteResp)
    (hcurrent : m.reject = false -> (g.cluster.nodes m.toId).Probing ->
      g.Sent m (g.round m.toId)) {tag : Nat}
    (hhandled : (g.cluster.nodes m.toId).handlePreVoteResp m = .ok n') :
    ProbeInv cfg.voters
      (g.label (g.cluster.setNode m.toId n') m.toId (g.round m.toId) tag) := by
  have hnode := hsim.nodes hi
  rcases Node.handlePreVoteResp_cases (hnode.self_mem hi) hhandled with
    ⟨_, rfl⟩ | ⟨hprobing, rfl⟩ | ⟨_, _, hquiet, _⟩
  · exact h.quiet hi rfl rfl (Node.Quiet.refl _)
  · have htally := h.counted hi hnode.voters_eq hprobing htype rfl
      fun hreject => hcurrent hreject hprobing
    have hmsgs : Node.msgs { g.cluster.nodes m.toId with
        preVotes := (g.cluster.nodes m.toId).counted m } =
        (g.cluster.nodes m.toId).msgs ++ [] := (List.append_nil _).symm
    refine h.label hi rfl rfl hmsgs (Nat.le_refl _) ?_ ?_ ?_
    · exact fun _ _ => ⟨hprobing, rfl⟩
    · intro m hm
      cases hm
    · exact fun _ => htally.label rfl
  · exact h.quiet hi rfl rfl hquiet

theorem inv_deliver (h : ProbeInv cfg.voters g) {s : AbstractState}
    (hsim : ClusterSim cfg.voters s g.cluster) (hm : g.cluster.network[k]? = some m)
    (hi : m.toId ∈ cfg.voters) (hcurrent : g.Current (.deliver k))
    {r : Option ProposeError × Node} (hstep : (g.cluster.nodes m.toId).step m = .ok r) :
    ProbeInv cfg.voters (g.follow (g.cluster.setNode m.toId r.2) (.deliver k)) := by
  have hnode := hsim.nodes hi
  rcases h.mem_sent hm with ⟨round, hround, hsent⟩
  simp only [follow, hm, hround]
  by_cases hprobe : m.type = .preVote
  · rw [Node.step, hprobe] at hstep
    rcases bind_eq_ok.mp hstep with ⟨n', hn', hpure⟩
    cases hpure
    simp only [hprobe, if_true]
    exact h.answer hi rfl rfl hnode.id_eq hsent hprobe rfl hn'
  · simp only [hprobe, if_false]
    by_cases hanswer : m.type = .preVoteResp
    · rw [Node.step_preVoteResp hanswer] at hstep
      rcases bind_eq_ok.mp hstep with ⟨n', hn', hpure⟩
      cases hpure
      refine inv_answered h hsim hi hanswer ?_ hn'
      intro hreject hprobing
      have hlabel := hcurrent m hm hanswer hreject hprobing
      rw [hround] at hlabel
      cases hlabel
      exact hsent
    · exact h.quiet hi rfl rfl (Node.step_quiet hprobe hanswer hstep)

theorem inv_exec (h : ProbeInv cfg.voters g) {s : AbstractState}
    (hsim : ClusterSim cfg.voters s g.cluster) (hallowed : cfg.Allowed g.cluster a)
    (hcurrent : g.Current a) (hexec : g.exec a = .ok g') : ProbeInv cfg.voters g' := by
  rcases bind_eq_ok.mp hexec with ⟨cl, hcl, hpure⟩
  cases hpure
  cases a with
  | tick id =>
      rcases bind_eq_ok.mp hcl with ⟨n', hn', hpure⟩
      cases hpure
      have hnode := hsim.nodes hallowed
      unfold follow
      by_cases htime : (g.cluster.nodes id).TimesOut
      · simp only [htime, if_true]
        rw [Node.tick_of_timesOut htime] at hn'
        exact h.campaign hallowed rfl rfl (n := { g.cluster.nodes id with
          electionElapsed := (g.cluster.nodes id).electionElapsed + 1 }) rfl hnode.id_eq
          (hnode.self_mem hallowed) htime.left hn'
      · simp only [htime, if_false]
        exact h.quiet hallowed rfl rfl (Node.Quiet.of_quietActs (Node.tick_acts hn' htime))
  | campaign id =>
      rcases bind_eq_ok.mp hcl with ⟨n', hn', hpure⟩
      cases hpure
      have hnode := hsim.nodes hallowed.left
      exact h.campaign hallowed.left rfl rfl rfl hnode.id_eq (hnode.self_mem hallowed.left)
        hallowed.right hn'
  | propose id data =>
      rcases bind_eq_ok.mp hcl with ⟨r, hr, hpure⟩
      cases hpure
      exact h.quiet hallowed rfl rfl (Node.step_quiet (by simp) (by simp) hr)
  | transferLeader id target =>
      rcases bind_eq_ok.mp hcl with ⟨r, hr, hpure⟩
      cases hpure
      exact h.quiet hallowed rfl rfl (Node.Quiet.of_quietActs (Node.transferLeader_acts hr))
  | readIndex id read =>
      rcases bind_eq_ok.mp hcl with ⟨r, hr, hpure⟩
      cases hpure
      exact h.quiet hallowed rfl rfl (Node.Quiet.of_quietActs (Node.readIndex_acts hr))
  | compactTo id index =>
      rcases bind_eq_ok.mp hcl with ⟨n', hn', hpure⟩
      cases hpure
      exact h.quiet hallowed.left rfl rfl (Node.Quiet.of_quietActs (Node.compactTo_acts hn'))
  | ready id =>
      rcases bind_eq_ok.mp hcl with ⟨r, hr, hpure⟩
      cases hpure
      rcases bind_eq_ok.mp hr with ⟨⟨rd, drained⟩, hready, hr⟩
      rcases bind_eq_ok.mp hr with ⟨n', hn', hpure⟩
      cases hpure
      rcases Node.ready_spec hready with ⟨rfl, hmsgs, _⟩
      refine h.ready hallowed ?_ rfl (Node.advance_quiet hn')
      show g.cluster.network ++ rd.messages = _
      rw [hmsgs]
  | deliver k =>
      unfold Cluster.exec at hcl
      cases hm : g.cluster.network[k]? with
      | none =>
          simp only [hm] at hcl
          cases hcl
          simp only [follow, hm]
          exact h
      | some m =>
          simp only [hm] at hcl
          rcases bind_eq_ok.mp hcl with ⟨r, hr, hpure⟩
          cases hpure
          exact inv_deliver h hsim hm (hallowed m hm) hcurrent hr

theorem Reachable.inv (h : Reachable cfg g) :
    cfg.Reachable g.cluster ∧ ProbeInv cfg.voters g := by
  rcases h with ⟨start, hinit, hreach⟩
  refine hreach.invariant (I := fun g => cfg.Reachable g.cluster ∧ ProbeInv cfg.voters g) ?_
    ⟨⟨start.cluster, hinit.left, Reach.start⟩, inv_initial hinit⟩
  rintro g a g' ⟨⟨first, hfirst, hrun⟩, hinv⟩ ⟨hallowed, hcurrent⟩ hexec
  have hreachable : cfg.Reachable g.cluster := ⟨first, hfirst, hrun⟩
  rcases hreachable.sim with ⟨s, hsim⟩
  refine ⟨⟨first, hfirst, ?_⟩, inv_exec hinv hsim hallowed hcurrent hexec⟩
  rcases bind_eq_ok.mp hexec with ⟨cl, hcl, hpure⟩
  cases hpure
  rw [cluster_follow]
  exact hrun.step hallowed hcl

/-- In a run whose counted answers are current, an answer raises the term of a
node only to the term that a majority has granted it in its current round. -/
theorem backedBy_of_raise (cfg : ClusterConfig) {g g' : ProbeRun} (hreach : Reachable cfg g)
    {k : Nat} {m : Message} (hm : g.cluster.network[k]? = some m)
    (htype : m.type = .preVoteResp) (hallowed : cfg.Allowed g.cluster (.deliver k))
    (hcurrent : g.Current (.deliver k)) (hexec : g.exec (.deliver k) = .ok g')
    (hraise : (g'.cluster.nodes m.toId).term ≠ (g.cluster.nodes m.toId).term) :
    BackedBy cfg.voters g m.toId (g'.cluster.nodes m.toId).term := by
  rcases hreach.inv with ⟨hreachable, hinv⟩
  rcases hreachable.sim with ⟨s, hsim⟩
  have hi := hallowed m hm
  have hnode := hsim.nodes hi
  rcases bind_eq_ok.mp hexec with ⟨cl, hcl, hpure⟩
  cases hpure
  unfold Cluster.exec at hcl
  simp only [hm] at hcl
  rcases bind_eq_ok.mp hcl with ⟨r, hr, hpure⟩
  cases hpure
  rw [Node.step_preVoteResp htype] at hr
  rcases bind_eq_ok.mp hr with ⟨n', hn', hpure⟩
  cases hpure
  have hterm : ((g.follow (g.cluster.setNode m.toId n') (.deliver k)).cluster.nodes m.toId) =
      n' := by
    rw [cluster_follow]
    exact Function.update_self _ _ _
  rw [hterm] at hraise ⊢
  rcases Node.handlePreVoteResp_cases (hnode.self_mem hi) hn' with
    ⟨_, rfl⟩ | ⟨_, rfl⟩ | ⟨hprobing, hquorum, _, _, hnext⟩
  · exact absurd rfl hraise
  · exact absurd rfl hraise
  · rcases hinv.mem_sent hm with ⟨round, hround, hsent⟩
    have htally : Tallied cfg.voters g m.toId ((g.cluster.nodes m.toId).counted m) := by
      refine hinv.counted hi hnode.voters_eq hprobing htype rfl ?_
      intro hreject
      have hlabel := hcurrent m hm htype hreject hprobing
      rw [hround] at hlabel
      cases hlabel
      exact hsent
    refine ⟨_, ⟨fun v hv => (htally v hv).left, ?_⟩, fun v hv => ?_⟩
    · rw [← hnode.voters_eq, List.toFinset_card_of_nodup hnode.voters_nodup]
      exact hquorum
    · rcases (htally v hv).right with hself | ⟨answer, hanswer, hkind, hgrant, hfrom, hto⟩
      · exact Or.inl hself
      · right
        rcases (hinv.sent _ _ hanswer).answer hkind with
          ⟨probe, hprobe, hptype, hpfrom, hpto, hpterm⟩
        rw [hto] at hpfrom
        have hasked := ((hinv.sent _ _ hprobe).probe hptype).right.right
        rw [hpfrom] at hasked
        have hasked := hasked rfl hprobing
        rw [hnext]
        exact ⟨⟨probe, hprobe, hptype, hpfrom, hpto.trans hfrom, hasked⟩,
          answer, hanswer, hkind, hgrant, hfrom, hto, hpterm.symm.trans hasked⟩

def start (cfg : ClusterConfig) : ProbeRun where
  cluster := cfg.start

theorem initial_start (cfg : ClusterConfig) : Initial cfg (start cfg) :=
  ⟨cfg.initial_start, rfl, fun _ => rfl⟩

def firstRound : List Action :=
  [.campaign 1, .ready 1, .deliver 0, .ready 2]

theorem backedBy_firstRound :
    exists g, Reachable ClusterConfig.three g ∧ exists g', g.exec (.deliver 2) = .ok g' ∧
      (g.cluster.nodes 1).term = 0 ∧ (g'.cluster.nodes 1).term = 1 ∧
      BackedBy ClusterConfig.three.voters g 1 (g'.cluster.nodes 1).term := by
  have hrun : okWith (runWhile exec
      (fun g a => ClusterConfig.three.Allowed g.cluster a ∧ g.Current a) firstRound
      (start ClusterConfig.three))
      (fun g => decide (ClusterConfig.three.Allowed g.cluster (.deliver 2) ∧
          g.Current (.deliver 2) ∧ (g.cluster.nodes 1).term = 0) &&
        (g.cluster.network[2]?).any (fun m => m.type = .preVoteResp ∧ m.toId = 1) &&
        okWith (g.exec (.deliver 2)) (fun g' => (g'.cluster.nodes 1).term = 1)) := by
    decide +kernel
  rcases exists_of_okWith hrun with ⟨g, hg, hcheck⟩
  rw [Bool.and_eq_true, Bool.and_eq_true, Option.any_eq_true] at hcheck
  rcases hcheck with ⟨⟨hstep, m, hm, hmsg⟩, hexec⟩
  rcases of_decide_eq_true hstep with ⟨hallowed, hcurrent, hbefore⟩
  rcases of_decide_eq_true hmsg with ⟨htype, hto⟩
  rcases exists_of_okWith hexec with ⟨g', hg', hafter⟩
  have hafter := of_decide_eq_true hafter
  have hreach : Reachable ClusterConfig.three g :=
    ⟨_, initial_start _, Reach.of_runWhile hg⟩
  have hbacked := backedBy_of_raise ClusterConfig.three hreach hm htype hallowed hcurrent hg'
    (by rw [hto, hbefore, hafter]; decide)
  rw [hto] at hbacked
  exact ⟨g, hreach, g', hg', hbefore, hafter, hbacked⟩

/-!
## An answer that comes late

Node 2 grants the first probe of node 1, and the answer is delayed.  Node 3 wins
the election of the first term and node 1 follows it.  When node 1 opens its next
round, nobody but the late answer speaks for it.
-/

def lateGrant : List Action :=
  firstRound ++
    [.campaign 3, .ready 3, .deliver 4, .ready 2, .deliver 5, .ready 3, .deliver 7,
      .ready 2, .deliver 8, .ready 3, .deliver 9, .ready 1, .campaign 1]

theorem not_backedBy_lateGrant :
    exists g, Reach exec (fun g a => ClusterConfig.three.Allowed g.cluster a)
        (start ClusterConfig.three) g ∧
      ClusterConfig.three.Allowed g.cluster (.deliver 2) ∧
      (g.cluster.network[2]?).any (fun m => m.type = .preVoteResp ∧ m.toId = 1) ∧
      (g.cluster.nodes 3).role = .leader ∧ (g.cluster.nodes 3).term = 1 ∧
      exists g', g.exec (.deliver 2) = .ok g' ∧ (g.cluster.nodes 1).term = 1 ∧
        (g'.cluster.nodes 1).term = 2 ∧
        ¬ BackedBy ClusterConfig.three.voters g 1 (g'.cluster.nodes 1).term := by
  have hrun : okWith (runWhile exec
      (fun g a => ClusterConfig.three.Allowed g.cluster a) lateGrant
      (start ClusterConfig.three))
      (fun g => decide (ClusterConfig.three.Allowed g.cluster (.deliver 2) ∧
          (g.cluster.nodes 3).role = .leader ∧ (g.cluster.nodes 3).term = 1 ∧
          (g.cluster.nodes 1).term = 1) &&
        (g.cluster.network[2]?).any (fun m => m.type = .preVoteResp ∧ m.toId = 1) &&
        (g.cluster.network.zip g.sent).all (fun x =>
          ¬ (x.1.type = .preVoteResp ∧ x.1.term = 2)) &&
        okWith (g.exec (.deliver 2)) (fun g' => (g'.cluster.nodes 1).term = 2)) := by
    decide +kernel
  rcases exists_of_okWith hrun with ⟨g, hg, hcheck⟩
  rw [Bool.and_eq_true, Bool.and_eq_true, Bool.and_eq_true] at hcheck
  rcases hcheck with ⟨⟨⟨hstate, hmsg⟩, hnone⟩, hexec⟩
  rcases of_decide_eq_true hstate with ⟨hallowed, hleads, hterm, hbefore⟩
  rcases exists_of_okWith hexec with ⟨g', hg', hafter⟩
  have hafter := of_decide_eq_true hafter
  refine ⟨g, Reach.of_runWhile hg, hallowed, hmsg, hleads, hterm, g', hg', hbefore, hafter, ?_⟩
  rintro ⟨Q, ⟨hsub, hcard⟩, hQ⟩
  have hself : Q ⊆ {1} := by
    intro v hv
    rcases hQ v hv with hv | ⟨_, m, hm, htype, _, _, _, hmterm⟩
    · exact Finset.mem_singleton.mpr hv
    · rw [hafter] at hmterm
      exact absurd ⟨htype, hmterm⟩ (of_decide_eq_true (List.all_eq_true.mp hnone _ hm))
  have hle := Finset.card_le_card hself
  rw [Finset.card_singleton] at hle
  have hvoters : ClusterConfig.three.voters.card = 3 := rfl
  lia

end ProbeRun

end Raft
end Basalt
