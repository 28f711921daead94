import Basalt.Raft.Acts
import Basalt.Raft.ConfChange
import Basalt.Raft.Persistence

/-!
# Acknowledgements and voters

A leader renews its lease and confirms its reads when enough nodes have
acknowledged an append.  It counts every node that answers, and compares the
count with the quorum of the voters of the moment.  Learners and members that
have been removed answer too, and a change of the members leaves the tallies as
they are.
-/

namespace Basalt
namespace Raft

open Lib Relation

namespace Node

/-!
## Tallies
-/

def Acks (n : Node) (m : Message) : Prop :=
  m.type = .appResp ∧ m.term = n.term ∧ n.role = .leader ∧ m.reject = false ∧
    n.matchIndex m.fromId ≤ m.logIndex

instance (n : Node) (m : Message) : Decidable (n.Acks m) :=
  inferInstanceAs (Decidable (_ ∧ _))

/-- The lease is renewed on the acknowledgements of `tally`. -/
def RenewsWith (n : Node) (m : Message) (tally : Finset Nat) : Prop :=
  n.Acks m ∧ exists k, n.advanceMatch m = .ok k ∧
    tally = insert m.fromId (k.leaseAcks.getD {k.id}) ∧ k.quorum ≤ tally.card

def ConfirmsWith (n : Node) (m : Message) (tally : Finset Nat) : Prop :=
  n.Acks m ∧ exists k, n.advanceMatch m = .ok k ∧
    (k.renewLeaseAck m.fromId).roundActive = true ∧
    tally = insert m.fromId (k.renewLeaseAck m.fromId).readAcks ∧
    (k.renewLeaseAck m.fromId).quorum ≤ tally.card

open scoped Evaluate in
instance (n : Node) (m : Message) (tally : Finset Nat) : Decidable (n.RenewsWith m tally) :=
  inferInstanceAs (Decidable (_ ∧ exists _, _ ∧ _))

open scoped Evaluate in
instance (n : Node) (m : Message) (tally : Finset Nat) : Decidable (n.ConfirmsWith m tally) :=
  inferInstanceAs (Decidable (_ ∧ exists _, _ ∧ _))

def HasMajority (n : Node) (tally : Finset Nat) : Prop :=
  n.voters.toFinset.card < 2 * (n.voters.toFinset ∩ tally).card

instance (n : Node) (tally : Finset Nat) : Decidable (n.HasMajority tally) :=
  inferInstanceAs (Decidable (_ < _))

def acked (n : Node) : Finset Nat :=
  n.leaseAcks.getD ∅ ∪ n.readAcks

variable {n n' n'' : Node} {m : Message} {scope : Scope}

theorem hasMajority_of_subset {tally : Finset Nat} (hsub : forall x, x ∈ tally -> x ∈ n.voters)
    (hcard : n.quorum ≤ tally.card) : n.HasMajority tally := by
  have hinter : n.voters.toFinset ∩ tally = tally := by
    apply Finset.inter_eq_right.mpr
    intro x hx
    exact List.mem_toFinset.mpr (hsub x hx)
  have hle := List.toFinset_card_le n.voters
  unfold HasMajority
  unfold quorum at hcard
  rw [hinter]
  lia

theorem mem_leaseTally {sender x : Nat} (h : x ∈ insert sender (n.leaseAcks.getD {n.id})) :
    x = n.id ∨ x ∈ n.acked ∨ x = sender := by
  rcases Finset.mem_insert.mp h with hx | hx
  · exact Or.inr (Or.inr hx)
  · cases hlease : n.leaseAcks with
    | none =>
        rw [hlease] at hx
        exact Or.inl (Finset.mem_singleton.mp hx)
    | some acks =>
        rw [hlease] at hx
        refine Or.inr (Or.inl (Finset.mem_union_left _ ?_))
        rw [hlease]
        exact hx

theorem mem_acked_renewLeaseAck {sender x : Nat} (h : x ∈ (n.renewLeaseAck sender).acked) :
    x = n.id ∨ x ∈ n.acked ∨ x = sender := by
  unfold renewLeaseAck at h
  dsimp only at h
  split at h
  · simp only [acked, Option.getD_none, Finset.empty_union] at h
    exact Or.inr (Or.inl (Finset.mem_union_right _ h))
  · rcases Finset.mem_union.mp h with hx | hx
    · exact mem_leaseTally hx
    · exact Or.inr (Or.inl (Finset.mem_union_right _ hx))

/-!
## What the operations count
-/

/-- Where the tallies after an operation come from. -/
structure Tallying (scope : Scope) (n n' : Node) : Prop where
  id_eq : n'.id = n.id
  voters_eq : n'.voters = n.voters
  member : n'.role ≠ .follower -> n.role ≠ .follower ∨ n.id ∈ n.voters
  acked : n'.role = .leader -> forall x, x ∈ n'.acked ->
    x = n.id ∨ (n.role = .leader ∧ x ∈ n.acked) ∨ scope.acker = some x

namespace Tallying

theorem of_acked (hid : n'.id = n.id) (hvoters : n'.voters = n.voters) (hrole : n'.role = n.role)
    (hacked : n.role = .leader -> forall x, x ∈ n'.acked ->
      x = n.id ∨ x ∈ n.acked ∨ scope.acker = some x) : Tallying scope n n' := by
  refine ⟨hid, hvoters, ?_, ?_⟩
  · rw [hrole]
    exact Or.inl
  · rw [hrole]
    intro hleads x hx
    rcases hacked hleads x hx with hx | hx | hx
    · exact Or.inl hx
    · exact Or.inr (Or.inl ⟨hleads, hx⟩)
    · exact Or.inr (Or.inr hx)

theorem of_same (hid : n'.id = n.id) (hvoters : n'.voters = n.voters) (hrole : n'.role = n.role)
    (hlease : n'.leaseAcks = n.leaseAcks) (hreads : n'.readAcks = n.readAcks) :
    Tallying scope n n' := by
  refine of_acked hid hvoters hrole fun _ x hx => ?_
  unfold Node.acked at hx ⊢
  rw [hlease, hreads] at hx
  exact Or.inr (Or.inl hx)

theorem refl (n : Node) : Tallying scope n n :=
  of_same rfl rfl rfl rfl rfl

theorem trans (h : Tallying scope n n') (h' : Tallying scope n' n'') : Tallying scope n n'' := by
  refine ⟨h'.id_eq.trans h.id_eq, h'.voters_eq.trans h.voters_eq, ?_, ?_⟩
  · intro hrole
    rcases h'.member hrole with hmid | hmid
    · exact h.member hmid
    · rw [h.id_eq, h.voters_eq] at hmid
      exact Or.inr hmid
  · intro hleads x hx
    rcases h'.acked hleads x hx with hown | ⟨hmid, hx⟩ | hx
    · exact Or.inl (hown.trans h.id_eq)
    · exact h.acked hmid x hx
    · exact Or.inr (Or.inr hx)

theorem of_candidate (hid : n'.id = n.id) (hvoters : n'.voters = n.voters) (hstands : n.Eligible)
    (hrole : n'.role = .candidate) : Tallying scope n n' := by
  refine ⟨hid, hvoters, fun _ => ?_, fun hleads => ?_⟩
  · rcases hstands with hstands | hstands
    · exact Or.inl (by simp [hstands])
    · exact Or.inr hstands
  · rw [hrole] at hleads
    cases hleads

theorem of_act (h : Act scope n n') : Tallying scope n n' := by
  cases h with
  | aside hcore _ hlease =>
      exact of_same (congrArg Core.id hcore) (congrArg Core.voters hcore)
        (congrArg Core.role hcore) hlease (congrArg Core.readAcks hcore)
  | pledge | say => exact of_same rfl rfl rfl rfl rfl
  | follow hrole _ hholds =>
      refine ⟨hholds.id_eq, hholds.voters, fun h => absurd hrole h, fun hleads => ?_⟩
      rw [hrole] at hleads
      cases hleads
  | stand _ hstands hrole _ _ hholds =>
      exact of_candidate hholds.id_eq hholds.voters hstands hrole
  | elect => exact of_same rfl rfl rfl rfl rfl
  | lead hrole =>
      refine ⟨rfl, rfl, fun _ => Or.inl (by simp [hrole]), fun _ x hx => ?_⟩
      simp [Node.acked] at hx
  | append => exact of_same rfl rfl rfl rfl rfl
  | commit hr =>
      rcases maybeCommit_fields hr with ⟨_, _, hsame, _⟩
      rw [hsame]
      exact of_same rfl rfl rfl rfl rfl
  | replicate _ _ _ hsent =>
      rcases sendAppend_fields hsent with ⟨_, _, hsame, _⟩
      rw [hsame]
      exact of_same rfl rfl rfl rfl rfl
  | reads hacks =>
      refine of_acked rfl rfl rfl fun _ x hx => ?_
      rcases Finset.mem_union.mp hx with hx | hx
      · exact Or.inr (Or.inl (Finset.mem_union_left _ hx))
      · rcases hacks with rfl | rfl | ⟨rfl, _⟩
        · exact absurd hx (Finset.notMem_empty x)
        · exact Or.inl (Finset.mem_singleton.mp hx)
        · exact Or.inr (Or.inl (Finset.mem_union_right _ hx))
  | count hsender =>
      refine of_acked rfl rfl rfl fun _ x hx => ?_
      rcases Finset.mem_union.mp hx with hx | hx
      · exact Or.inr (Or.inl (Finset.mem_union_left _ hx))
      · rcases Finset.mem_insert.mp hx with rfl | hx
        · exact Or.inr (Or.inr hsender)
        · exact Or.inr (Or.inl (Finset.mem_union_right _ hx))
  | renew hsender =>
      rename_i sender _
      have hcore := core_renewLeaseAck n sender
      refine of_acked (congrArg Core.id hcore) (congrArg Core.voters hcore)
        (congrArg Core.role hcore) fun _ x hx => ?_
      rcases mem_acked_renewLeaseAck hx with hx | hx | hx
      · exact Or.inl hx
      · exact Or.inr (Or.inl hx)
      · exact Or.inr (Or.inr (by rw [hsender, hx]))
  | preCampaign _ _ hstands hcore =>
      exact of_candidate (congrArg Core.id hcore) (congrArg Core.voters hcore) hstands
        (congrArg Core.role hcore)
  | tally | probe | settle => exact of_same rfl rfl rfl rfl rfl

theorem of_acts (h : Acts scope n n') : Tallying scope n n' := by
  induction h with
  | refl => exact refl n
  | tail _ hact ih => exact ih.trans (of_act hact)

end Tallying

/-!
## Members
-/

/-- A node that campaigns or leads is a voter, and so is every node in its
tallies while it leads. -/
structure Attested (n : Node) : Prop where
  member : n.role ≠ .follower -> n.id ∈ n.voters
  acked : n.role = .leader -> forall x, x ∈ n.acked -> x ∈ n.voters

namespace Attested

theorem of_follower (h : n.role = .follower) : n.Attested := by
  constructor
  · intro hrole
    exact absurd h hrole
  · intro hrole
    rw [h] at hrole
    cases hrole

theorem tallying (h : n.Attested) (ht : Tallying scope n n')
    (hacker : forall x, scope.acker = some x -> x ∈ n.voters) : n'.Attested := by
  have hmember : n'.role ≠ .follower -> n.id ∈ n.voters := by
    intro hrole
    rcases ht.member hrole with hn | hn
    · exact h.member hn
    · exact hn
  constructor
  · rw [ht.id_eq, ht.voters_eq]
    exact hmember
  · intro hleads x hx
    rw [ht.voters_eq]
    rcases ht.acked hleads x hx with rfl | ⟨hn, hx⟩ | hx
    · exact hmember (by simp [hleads])
    · exact h.acked hn x hx
    · exact hacker x hx

theorem acts (h : n.Attested) (hacts : Acts {} n n') : n'.Attested :=
  h.tallying (Tallying.of_acts hacts) (by simp)

theorem probingActs (h : n.Attested) (hacts : Acts { probes := true } n n') : n'.Attested :=
  h.tallying (Tallying.of_acts hacts) (by simp)

end Attested

def removed (e : Entry) : Option Nat :=
  if e.type = .confChange then
    match decodeConfChange e.data with
    | some cc => if cc.type = .removeNode then some cc.node else none
    | none => none
  else none

/-- A removal that the tallies survive: of a node that is in none of them, and not
of the node itself unless it follows. -/
def Harmless (n : Node) (x : Nat) : Prop :=
  (n.role ≠ .follower -> x ≠ n.id) ∧ (n.role = .leader -> x ∉ n.acked)

instance (n : Node) (x : Nat) : Decidable (n.Harmless x) :=
  inferInstanceAs (Decidable ((_ -> _) ∧ (_ -> _)))

theorem initProgress_fields (n : Node) (x : Nat) :
    (n.initProgress x).id = n.id ∧ (n.initProgress x).role = n.role ∧
      (n.initProgress x).acked = n.acked ∧ (n.initProgress x).voters = n.voters := by
  unfold initProgress
  split
  · exact ⟨rfl, rfl, rfl, rfl⟩
  · split
    · exact ⟨rfl, rfl, rfl, rfl⟩
    · exact ⟨rfl, rfl, rfl, rfl⟩

theorem applyConfChange_fields (n : Node) (cc : ConfChange) :
    (n.applyConfChange cc).id = n.id ∧ (n.applyConfChange cc).role = n.role ∧
      (n.applyConfChange cc).acked = n.acked ∧
      forall x, x ∈ n.voters -> (cc.type = .removeNode -> x ≠ cc.node) ->
        x ∈ (n.applyConfChange cc).voters := by
  unfold applyConfChange
  cases cc.type with
  | addNode =>
      dsimp only
      rcases initProgress_fields
        { n with
          learners := n.learners.erase cc.node
          voters := if cc.node ∈ n.voters then n.voters else n.voters ++ [cc.node] } cc.node with
        ⟨hid, hrole, hacked, hvoters⟩
      refine ⟨hid, hrole, hacked, fun x hx _ => ?_⟩
      rw [hvoters]
      dsimp only
      split
      · exact hx
      · exact List.mem_append_left _ hx
  | addLearner =>
      dsimp only
      split
      · exact ⟨rfl, rfl, rfl, fun _ hx _ => hx⟩
      · rcases initProgress_fields
          { n with
            learners := if cc.node ∈ n.learners then n.learners else n.learners ++ [cc.node] }
          cc.node with ⟨hid, hrole, hacked, hvoters⟩
        refine ⟨hid, hrole, hacked, fun x hx _ => ?_⟩
        rw [hvoters]
        exact hx
  | removeNode => exact ⟨rfl, rfl, rfl, fun x hx hne => (List.mem_erase_of_ne (hne rfl)).mpr hx⟩
  | other => exact ⟨rfl, rfl, rfl, fun _ hx _ => hx⟩

theorem applyConfEntry_fields (n : Node) (e : Entry) :
    (n.applyConfEntry e).id = n.id ∧ (n.applyConfEntry e).role = n.role ∧
      (n.applyConfEntry e).acked = n.acked ∧
      forall x, x ∈ n.voters -> removed e ≠ some x -> x ∈ (n.applyConfEntry e).voters := by
  unfold applyConfEntry removed
  split
  · cases decodeConfChange e.data with
    | none => exact ⟨rfl, rfl, rfl, fun _ hx _ => hx⟩
    | some cc =>
        rcases applyConfChange_fields n cc with ⟨hid, hrole, hacked, hvoters⟩
        refine ⟨hid, hrole, hacked, fun x hx hkept => hvoters x hx fun htype => ?_⟩
        simp only [htype, if_true, ne_eq, Option.some.injEq] at hkept
        exact Ne.symm hkept
  · exact ⟨rfl, rfl, rfl, fun _ hx _ => hx⟩

theorem Attested.applyConfEntry {e : Entry} (h : n.Attested)
    (hharmless : forall x, removed e = some x -> n.Harmless x) : (n.applyConfEntry e).Attested := by
  rcases applyConfEntry_fields n e with ⟨hid, hrole, hacked, hvoters⟩
  constructor
  · rw [hrole, hid]
    intro hn
    exact hvoters _ (h.member hn) fun hremoved => (hharmless _ hremoved).left hn rfl
  · rw [hrole, hacked]
    intro hn x hx
    exact hvoters x (h.acked hn x hx) fun hremoved => (hharmless x hremoved).right hn hx

theorem Attested.foldl_applyConfEntry {es : List Entry} (h : n.Attested)
    (hharmless : forall e, e ∈ es -> forall x, removed e = some x -> n.Harmless x) :
    (es.foldl Node.applyConfEntry n).Attested := by
  induction es generalizing n with
  | nil => exact h
  | cons e es ih =>
      apply ih (h.applyConfEntry (hharmless e (List.mem_cons_self ..)))
      intro d hd x hx
      rcases applyConfEntry_fields n e with ⟨hid, hrole, hacked, _⟩
      unfold Harmless
      rw [hid, hrole, hacked]
      exact hharmless d (List.mem_cons_of_mem e hd) x hx

/-!
## Calls
-/

inductive Call where
  | event (ev : Replica.Event)
  | restoreSnapshot (index term : Nat)

def call (n : Node) : Call -> Except Panic Node
  | .event .drain => do
      let (rd, n) <- n.ready
      n.advance rd
  | .event (.compact index) => n.compactTo index
  | .event ev => Replica.feed n ev
  | .restoreSnapshot index term => pure (n.restoreSnapshot index term).2

def nextApplied (n : Node) : List Entry :=
  match n.ready with
  | .ok (rd, _) => rd.committedEntries
  | .error _ => []

/-- Voters acknowledge, and no node is removed while it counts. -/
def VotersOnly (n : Node) : Call -> Prop
  | .event (.step m) => n.Acks m -> m.fromId ∈ n.voters
  | .event .drain =>
      forall e, e ∈ n.nextApplied -> forall x, x ∈ removed e -> n.Harmless x
  | _ => True

instance (n : Node) : (c : Call) -> Decidable (n.VotersOnly c)
  | .event (.step m) => inferInstanceAs (Decidable (n.Acks m -> m.fromId ∈ n.voters))
  | .event .drain =>
      inferInstanceAs (Decidable
        (forall e, e ∈ n.nextApplied -> forall x, x ∈ removed e -> n.Harmless x))
  | .event .tick | .event .campaign | .event (.propose _) | .event (.proposeConfChange _)
  | .event (.transferLeader _) | .event (.readIndex _) | .event (.compact _)
  | .restoreSnapshot _ _ => inferInstanceAs (Decidable True)

theorem recorded_voters (n : Node) (m : Message) : (n.recorded m).voters = n.voters := by
  unfold recorded
  split
  · split
    · rfl
    · rfl
  · split
    · rfl
    · rfl

theorem Attested.recorded (h : n.Attested) (m : Message) : (n.recorded m).Attested := by
  unfold Node.recorded
  split
  · split
    · exact ⟨h.member, h.acked⟩
    · exact h
  · split
    · exact ⟨h.member, h.acked⟩
    · exact h

theorem Attested.handleAppResp (h : n.Attested) (htype : m.type = .appResp)
    (hterm : m.term = n.term) (hvoter : n.Acks m -> m.fromId ∈ n.voters)
    (hok : n.handleAppResp m = .ok n') : n'.Attested := by
  rcases handleAppResp_acts hok with rfl | ⟨hrole, ⟨_, hsent⟩ | ⟨haccept, hacts⟩⟩
  · exact h
  · rcases sendAppend_fields hsent with ⟨_, _, hsame, _⟩
    have hrecorded := h.recorded m
    rw [hsame]
    exact ⟨hrecorded.member, hrecorded.acked⟩
  · by_cases hle : n.matchIndex m.fromId ≤ m.logIndex
    · refine (h.recorded m).tallying (Tallying.of_acts hacts) fun x hx => ?_
      cases hx
      rw [recorded_voters]
      exact hvoter ⟨htype, hterm, hrole, haccept, hle⟩
    · unfold Node.handleAppResp at hok
      rw [if_neg (not_not.mpr hrole), haccept, if_neg (by decide), if_neg hle] at hok
      cases hok
      exact h

theorem Attested.step {r : Option ProposeError × Node} (h : n.Attested)
    (hvoter : n.Acks m -> m.fromId ∈ n.voters) (hok : n.step m = .ok r) : r.2.Attested := by
  by_cases hprobe : m.type = .preVote
  · rw [Node.step, hprobe] at hok
    rcases bind_eq_ok.mp hok with ⟨last, hlast, hpure⟩
    cases hpure
    exact h.probingActs (handlePreVote_acts hlast rfl)
  by_cases hgrant : m.type = .preVoteResp
  · rw [Node.step, hgrant] at hok
    rcases bind_eq_ok.mp hok with ⟨last, hlast, hpure⟩
    cases hpure
    exact h.probingActs (handlePreVoteResp_acts hlast rfl)
  rcases step_acts hok hprobe hgrant with hacts | ⟨htype, hterm, hhandled⟩
  · exact h.acts (hacts {})
  · exact h.handleAppResp htype hterm hvoter hhandled

theorem Attested.campaign (h : n.Attested) (hok : n.campaign = .ok n') : n'.Attested := by
  by_cases hrole : n.role = .leader
  · unfold Node.campaign at hok
    rw [if_neg (not_not.mpr (h.member (by simp [hrole]))), becomePreCandidate, if_pos hrole] at hok
    cases hok
  · exact h.probingActs (campaign_acts hok hrole rfl)

theorem Attested.tick (h : n.Attested) (hok : n.tick = .ok n') : n'.Attested := by
  by_cases htime : n.TimesOut
  · rw [tick_of_timesOut htime] at hok
    have hcounted : Attested { n with electionElapsed := n.electionElapsed + 1 } :=
      ⟨h.member, h.acked⟩
    exact hcounted.campaign hok
  · exact h.acts (tick_acts hok htime)

theorem Attested.drain {rd : Ready} {taken : Node} (h : n.Attested)
    (hready : n.ready = .ok (rd, taken)) (hok : taken.advance rd = .ok n')
    (hharmless : forall e, e ∈ rd.committedEntries -> forall x, removed e = some x ->
      n.Harmless x) : n'.Attested := by
  rcases ready_spec hready with ⟨rfl, _⟩
  have hadvanced : exists stable, Acts {} { n with msgs := [] } stable ∧
      stable.role = n.role ∧
      Acts {} (rd.committedEntries.foldl Node.applyConfEntry stable) n' := advance_acts hok
  rcases hadvanced with ⟨stable, hfirst, hrole, hlast⟩
  have htaken : Attested { n with msgs := [] } := ⟨h.member, h.acked⟩
  have hstable := htaken.acts hfirst
  have htally := Tallying.of_acts hfirst
  refine Attested.acts (hstable.foldl_applyConfEntry ?_) hlast
  intro e he x hx
  rcases hharmless e he x hx with ⟨hself, hcounted⟩
  constructor
  · rw [hrole, htally.id_eq]
    exact hself
  · intro hleads hmem
    rw [hrole] at hleads
    rcases htally.acked (by rw [hrole]; exact hleads) x hmem with hx | ⟨_, hx⟩ | hx
    · exact hself (by simp [hleads]) hx
    · exact hcounted hleads hx
    · cases hx

theorem Attested.call {c : Call} (h : n.Attested) (hguard : n.VotersOnly c)
    (hok : n.call c = .ok n') : n'.Attested := by
  cases c with
  | restoreSnapshot index term =>
      cases hok
      unfold Node.restoreSnapshot
      split
      · exact h
      · split
        · exact h
        · dsimp only
          split
          · exact Attested.of_follower rfl
          · exact Attested.of_follower rfl
  | event ev =>
      cases ev with
      | step m =>
          rcases bind_eq_ok.mp hok with ⟨r, hr, hpure⟩
          cases hpure
          exact h.step hguard hr
      | tick => exact h.tick hok
      | campaign => exact h.campaign hok
      | propose data =>
          rcases bind_eq_ok.mp hok with ⟨r, hr, hpure⟩
          cases hpure
          refine h.step ?_ hr
          rintro ⟨htype, _⟩
          cases htype
      | proposeConfChange cc =>
          rcases bind_eq_ok.mp hok with ⟨r, hr, hpure⟩
          cases hpure
          exact h.acts (proposeConfChange_acts hr)
      | transferLeader target =>
          rcases bind_eq_ok.mp hok with ⟨r, hr, hpure⟩
          cases hpure
          exact h.acts (transferLeader_acts hr)
      | readIndex id =>
          rcases bind_eq_ok.mp hok with ⟨r, hr, hpure⟩
          cases hpure
          exact h.acts (readIndex_acts hr)
      | drain =>
          rcases bind_eq_ok.mp hok with ⟨⟨rd, taken⟩, hready, hadvance⟩
          refine h.drain hready hadvance fun e he x hx => hguard e ?_ x hx
          unfold nextApplied
          rw [hready]
          exact he
      | compact index => exact h.acts (compactTo_acts hok)

theorem RenewsWith.hasMajority {tally : Finset Nat} (h : n.RenewsWith m tally)
    (hn : n.Attested) (hvoter : m.fromId ∈ n.voters) : n.HasMajority tally := by
  rcases h with ⟨⟨_, _, hrole, _⟩, k, hk, rfl, hcard⟩
  rcases advanceMatch_replicates hk with ⟨_, _, _, _, rfl, _⟩
  refine hasMajority_of_subset (fun x hx => ?_) hcard
  rcases mem_leaseTally hx with rfl | hx | rfl
  · exact hn.member (by simp [hrole])
  · exact hn.acked hrole x hx
  · exact hvoter

theorem ConfirmsWith.hasMajority {tally : Finset Nat} (h : n.ConfirmsWith m tally)
    (hn : n.Attested) (hvoter : m.fromId ∈ n.voters) : n.HasMajority tally := by
  rcases h with ⟨⟨_, _, hrole, _⟩, k, hk, _, rfl, hcard⟩
  rcases advanceMatch_replicates hk with ⟨_, _, _, _, hsame, _⟩
  have hcore := core_renewLeaseAck k m.fromId
  have hacks : (k.renewLeaseAck m.fromId).readAcks = n.readAcks := by
    rw [show (k.renewLeaseAck m.fromId).readAcks = k.readAcks from congrArg Core.readAcks hcore,
      hsame]
  have hvoters : (k.renewLeaseAck m.fromId).voters = n.voters := by
    rw [show (k.renewLeaseAck m.fromId).voters = k.voters from congrArg Core.voters hcore, hsame]
  rw [hacks] at hcard ⊢
  unfold quorum at hcard
  rw [hvoters] at hcard
  refine hasMajority_of_subset (fun x hx => ?_) hcard
  rcases Finset.mem_insert.mp hx with rfl | hx
  · exact hvoter
  · exact hn.acked hrole x (Finset.mem_union_right _ hx)

theorem role_restoreNode {cfg : Config} {rec : Recovered} {applied : Nat}
    (h : restoreNode cfg rec applied = .ok n) : n.role = .follower := by
  rcases restoreNode_lasting h with ⟨_, _, _, hlasting⟩
  exact congrArg (fun x => x.2.1) hlasting

/-- In every run of a node in which only voters acknowledge and no node is removed
while it counts, the lease is renewed and the reads are confirmed by a majority of
the voters. -/
theorem counted_by_majority {cfg : Config} {rec : Recovered} {applied : Nat} {start n : Node}
    (hstart : restoreNode cfg rec applied = .ok start)
    (hreach : Reach Node.call Node.VotersOnly start n) {m : Message}
    (hm : n.VotersOnly (.event (.step m))) {tally : Finset Nat}
    (hcount : n.RenewsWith m tally ∨ n.ConfirmsWith m tally) : n.HasMajority tally := by
  have hn : n.Attested :=
    hreach.invariant (fun _ _ _ h hguard hok => h.call hguard hok)
      (Attested.of_follower (role_restoreNode hstart))
  rcases hcount with hcount | hcount
  · exact hcount.hasMajority hn (hm hcount.left)
  · exact hcount.hasMajority hn (hm hcount.left)

def ackOfTwo : Message :=
  { type := .appResp, fromId := 2, toId := 1, term := 1, logIndex := 1 }

/-- Node 1 wins its first election with the vote of node 2, commits its entry and
starts a read round. -/
def firstRead : List Call :=
  [.event .campaign, .event (.step { type := .preVoteResp, fromId := 2, toId := 1, term := 1 }),
    .event (.step { type := .voteResp, fromId := 2, toId := 1, term := 1 }), .event .drain,
    .event (.step ackOfTwo), .event (.readIndex 7)]

theorem counted_by_majority_firstRead :
    exists start n, restoreNode { id := 1, peers := [1, 2, 3] } {} 0 = .ok start ∧
      Reach Node.call Node.VotersOnly start n ∧ n.RenewsWith ackOfTwo {1, 2} ∧
      n.ConfirmsWith ackOfTwo {1, 2} ∧ n.HasMajority {1, 2} := by
  have hrun : okWith
      (do
        let start <- restoreNode { id := 1, peers := [1, 2, 3] } {} 0
        let n <- runWhile Node.call Node.VotersOnly firstRead start
        pure (start, n))
      (fun x => decide (x.2.VotersOnly (.event (.step ackOfTwo)) ∧
        x.2.RenewsWith ackOfTwo {1, 2} ∧ x.2.ConfirmsWith ackOfTwo {1, 2})) := by
    decide +kernel
  rcases exists_of_okWith hrun with ⟨⟨start, n⟩, hpair, hlast⟩
  rcases bind_eq_ok.mp hpair with ⟨s, hstart, hrest⟩
  rcases bind_eq_ok.mp hrest with ⟨last, hlast', hpure⟩
  cases hpure
  rcases of_decide_eq_true hlast with ⟨hm, hrenews, hconfirms⟩
  have hreach := Reach.of_runWhile hlast'
  exact ⟨_, _, hstart, hreach, hrenews, hconfirms,
    counted_by_majority hstart hreach hm (Or.inl hrenews)⟩

end Node

namespace ClusterConfig

/-- Node 3 acknowledges the first entry of node 1, is removed, and its
acknowledgement is still on the way when node 1 starts a read. -/
def removedMember : List ConfAction :=
  electOne.map .act ++
    [.act (.deliver 7), .act (.ready 3), .proposeConfChange 1 { type := .removeNode, node := 3 },
      .act (.ready 1), .act (.deliver 12), .act (.ready 2), .act (.deliver 14), .act (.ready 1),
      .act (.readIndex 1 7)]

end ClusterConfig

/-- The acknowledgement of the removed member renews the lease and confirms the
read, although one of the two voters has said nothing. -/
theorem not_hasMajority_removedMember :
    exists cl m, Reach Roster.exec Roster.Allowed
        (ClusterConfig.three.roster ClusterConfig.three.start) cl ∧
      m ∈ cl.network ∧ m.toId = 1 ∧ m.fromId = 3 ∧ (cl.nodes 1).members.1 = {1, 2} ∧
      (cl.nodes 1).RenewsWith m {1, 3} ∧ (cl.nodes 1).ConfirmsWith m {1, 3} ∧
      ¬ (cl.nodes 1).HasMajority {1, 3} := by
  have hrun : okWith
      (runWhile Roster.exec Roster.Allowed ClusterConfig.removedMember
        (ClusterConfig.three.roster ClusterConfig.three.start))
      (fun cl => cl.network.any fun m => decide (m.toId = 1 ∧ m.fromId = 3 ∧
        (cl.nodes 1).members.1 = {1, 2} ∧ (cl.nodes 1).RenewsWith m {1, 3} ∧
        (cl.nodes 1).ConfirmsWith m {1, 3} ∧ ¬ (cl.nodes 1).HasMajority {1, 3})) := by
    decide +kernel
  rcases exists_of_okWith hrun with ⟨cl, hcl, hlast⟩
  rcases List.any_eq_true.mp hlast with ⟨m, hm, hcounted⟩
  exact ⟨cl, m, Reach.of_runWhile hcl, hm, of_decide_eq_true hcounted⟩

end Raft
end Basalt
