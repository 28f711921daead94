import Basalt.Raft.Acts
import Basalt.Raft.StateMachineSafety

/-!
# The progress of the followers

A leader keeps for every follower how far it has acknowledged and where the next
append starts.  An acknowledgement moves both, and a refusal moves the start of
the next append back.  Nothing tells which append a refusal answers: one that
comes late moves it back behind what is acknowledged.
-/

namespace Basalt
namespace Raft

open Lib Lib.ReplicatedLog Relation

theorem RaftLog.term_eq_none_iff {l : RaftLog} {i : Nat} (hi : i ≤ l.lastIndex) :
    l.term i = none <-> i < l.snapIndex := by
  have hoffset := l.offset_eq
  have hlast := l.lastIndex_eq
  unfold RaftLog.term
  split
  · simp only [reduceCtorEq, false_iff]
    lia
  · split
    · simp only [true_iff]
      lia
    · rw [Option.map_eq_none_iff, List.getElem?_eq_none_iff]
      lia

namespace Node

/-- The next append to a follower starts after what it has acknowledged, and not
beyond the end of the log. -/
def InOrder (n : Node) : Prop :=
  n.role = .leader -> forall p, p ∈ n.peers -> p ≠ n.id -> exists next,
    n.nextIndex p = some next ∧ n.matchIndex p < next ∧ next ≤ n.log.lastIndex + 1

/-- An append starts at or after what its receiver has acknowledged, and a
snapshot goes only to a node that has not acknowledged its end. -/
def Resumes (n : Node) (m : Message) : Prop :=
  (m.type = .app -> n.matchIndex m.toId ≤ m.logIndex) ∧
    (m.type = .snap -> n.matchIndex m.toId < m.logIndex)

instance (n : Node) (m : Message) : Decidable (n.Resumes m) :=
  inferInstanceAs (Decidable ((_ -> _) ∧ (_ -> _)))

structure Orderly (n n' : Node) : Prop where
  id_eq : n'.id = n.id
  matched : forall p, p ≠ n.id -> n'.matchIndex p ≤ n.matchIndex p
  inOrder : n.InOrder -> n'.InOrder
  sent : n.InOrder -> exists ms, n'.msgs = n.msgs ++ ms ∧
    forall m, m ∈ ms -> m.type = .app ∨ m.type = .snap -> m.toId ≠ n.id ∧ n'.Resumes m

variable {n n' n'' : Node} {m : Message} {scope : Scope}

theorem InOrder.of_follower (h : n.role ≠ .leader) : n.InOrder :=
  fun hrole => absurd hrole h

theorem InOrder.with_log (h : n.InOrder) (hrole : n'.role = n.role) (hid : n'.id = n.id)
    (hpeers : n'.peers = n.peers) (hnext : n'.nextIndex = n.nextIndex)
    (hmatch : forall p, p ≠ n.id -> n'.matchIndex p = n.matchIndex p)
    (hlast : n.log.lastIndex ≤ n'.log.lastIndex) : n'.InOrder := by
  intro hleads p hp hne
  rw [hrole] at hleads
  rw [hpeers] at hp
  rw [hid] at hne
  rcases h hleads p hp hne with ⟨next, hsome, hlt, hle⟩
  refine ⟨next, ?_, ?_, by lia⟩
  · rw [hnext, hsome]
  · rw [hmatch p hne]
    exact hlt

theorem Resumes.mono (h : n.Resumes m) (hle : n'.matchIndex m.toId ≤ n.matchIndex m.toId) :
    n'.Resumes m :=
  ⟨fun htype => Nat.le_trans hle (h.left htype), fun htype => Nat.lt_of_le_of_lt hle (h.right htype)⟩

namespace Orderly

theorem of_msgs (hid : n'.id = n.id) (hmsgs : n'.msgs = n.msgs)
    (hmatch : forall p, p ≠ n.id -> n'.matchIndex p ≤ n.matchIndex p)
    (horder : n.InOrder -> n'.InOrder) : Orderly n n' := by
  refine ⟨hid, hmatch, horder, fun _ => ⟨[], ?_, ?_⟩⟩
  · rw [hmsgs, List.append_nil]
  · intro m hm
    cases hm

theorem of_same (hid : n'.id = n.id) (hmsgs : n'.msgs = n.msgs)
    (hmatch : n'.matchIndex = n.matchIndex) (horder : n.InOrder -> n'.InOrder) :
    Orderly n n' :=
  of_msgs hid hmsgs (fun p _ => Nat.le_of_eq (congrFun hmatch p)) horder

theorem refl (n : Node) : Orderly n n :=
  of_same rfl rfl rfl fun h => h

theorem trans (h : Orderly n n') (h' : Orderly n' n'') : Orderly n n'' := by
  refine ⟨h'.id_eq.trans h.id_eq, ?_, fun horder => h'.inOrder (h.inOrder horder), ?_⟩
  · intro p hp
    exact Nat.le_trans (h'.matched p (by rw [h.id_eq]; exact hp)) (h.matched p hp)
  · intro horder
    rcases h.sent horder with ⟨ms, hmsgs, hms⟩
    rcases h'.sent (h.inOrder horder) with ⟨ms', hmsgs', hms'⟩
    refine ⟨ms ++ ms', ?_, ?_⟩
    · rw [hmsgs', hmsgs, List.append_assoc]
    · intro m hm hkind
      rcases List.mem_append.mp hm with hm | hm
      · rcases hms m hm hkind with ⟨hto, hresumes⟩
        exact ⟨hto, hresumes.mono (h'.matched _ (by rw [h.id_eq]; exact hto))⟩
      · rcases hms' m hm hkind with ⟨hto, hresumes⟩
        rw [h.id_eq] at hto
        exact ⟨hto, hresumes⟩

theorem of_core (hcore : n'.core = n.core) : Orderly n n' := by
  refine of_same (congrArg Core.id hcore) (congrArg Core.msgs hcore)
    (congrArg Core.matchIndex hcore) fun horder => horder.with_log (congrArg Core.role hcore)
      (congrArg Core.id hcore) ?_ (congrArg Core.nextIndex hcore) ?_ ?_
  · exact congrArg (fun c => c.voters ++ c.learners) hcore
  · exact fun p _ => congrFun (congrArg Core.matchIndex hcore) p
  · exact Nat.le_of_eq (congrArg (fun c : Core => c.log.lastIndex) hcore.symm)

theorem of_send (n : Node) (happ : m.type ≠ .app) (hsnap : m.type ≠ .snap) :
    Orderly n (n.send m) := by
  refine ⟨rfl, fun _ _ => Nat.le_refl _, fun h => h, fun _ => ⟨[n.core.stamp m], rfl, ?_⟩⟩
  intro m' hm' hkind
  rw [List.mem_singleton.mp hm', stamp_type] at hkind
  rcases hkind with hkind | hkind
  · exact absurd hkind happ
  · exact absurd hkind hsnap

end Orderly

/-!
## Appends
-/

/-- The message to a follower starts where its progress says, or is a snapshot if
that is compacted. -/
theorem sendAppend_resumes {p next : Nat} (h : n.sendAppend p = .ok n')
    (hnext : n.nextIndex p = some next) (hlt : n.matchIndex p < max next n.log.snapIndex)
    (hle : next ≤ n.log.lastIndex + 1) (hpos : 1 ≤ next) :
    exists m next',
      n' = { n with
        msgs := n.msgs ++ [m]
        nextIndex := Function.update n.nextIndex p (some next') } ∧
      m.toId = p ∧ n.Resumes m ∧ n.matchIndex p < next' ∧ next' ≤ n.log.lastIndex + 1 := by
  have hprev : prevIndexOf ((n.nextIndex p).getD 0) = next - 1 := by
    rw [hnext]
    exact if_neg (show next ≠ 0 by lia)
  have hknown := RaftLog.term_eq_none_iff (l := n.log) (i := next - 1) (by lia)
  have hsnap := n.log.lastIndex_eq
  unfold sendAppend at h
  dsimp only at h
  rw [hprev] at h
  cases hterm : n.log.term (next - 1) with
  | none =>
      rw [hterm] at h
      cases h
      have hdropped := hknown.mp hterm
      refine ⟨n.core.stamp
        { type := .snap
          toId := p
          logIndex := n.log.snapIndex
          logTerm := n.log.snapTerm }, n.log.snapIndex + 1, rfl, ?_, ?_, by lia, by lia⟩
      · rw [stamp_eq]
      · rw [stamp_eq]
        refine ⟨by simp, fun _ => ?_⟩
        show n.matchIndex p < n.log.snapIndex
        lia
  | some prevTerm =>
      rw [hterm] at h
      rcases bind_eq_ok.mp h with ⟨ents, _, hpure⟩
      cases hpure
      have hkept : ¬ next - 1 < n.log.snapIndex := by
        rw [← hknown, hterm]
        simp
      refine ⟨n.core.stamp
        { type := .app
          toId := p
          logIndex := next - 1
          logTerm := prevTerm
          entries := ents
          commit := min n.log.committed (next - 1 + ents.length) }, next, ?_, ?_, ?_, by lia, hle⟩
      · rw [← hnext, Function.update_eq_self]
        rfl
      · rw [stamp_eq]
      · rw [stamp_eq]
        refine ⟨fun _ => ?_, by simp⟩
        show n.matchIndex p ≤ next - 1
        lia

theorem InOrder.with_sent {p next : Nat} {ms : List Message}
    (horder : n.role = .leader -> forall q, q ∈ n.peers -> q ≠ n.id -> q ≠ p -> exists next,
      n.nextIndex q = some next ∧ n.matchIndex q < next ∧ next ≤ n.log.lastIndex + 1)
    (hlt : n.matchIndex p < next) (hle : next ≤ n.log.lastIndex + 1) :
    InOrder { n with
      msgs := ms
      nextIndex := Function.update n.nextIndex p (some next) } := by
  intro hrole q hq hne
  show exists x, Function.update n.nextIndex p (some next) q = some x ∧ _
  by_cases hqp : q = p
  · rw [hqp, Function.update_self]
    exact ⟨next, rfl, hlt, hle⟩
  · rw [Function.update_of_ne hqp]
    exact horder hrole q hq hne hqp

theorem sendAppend_orderly {p : Nat} (hrole : n.role = .leader) (hp : p ∈ n.peers)
    (hne : p ≠ n.id) (h : n.sendAppend p = .ok n') : Orderly n n' := by
  have hsent : n.InOrder -> exists m next',
      n' = { n with
        msgs := n.msgs ++ [m]
        nextIndex := Function.update n.nextIndex p (some next') } ∧
      m.toId = p ∧ n.Resumes m ∧ n.matchIndex p < next' ∧ next' ≤ n.log.lastIndex + 1 := by
    intro horder
    rcases horder hrole p hp hne with ⟨next, hnext, hlt, hle⟩
    exact sendAppend_resumes h hnext (by lia) hle (by lia)
  rcases sendAppend_fields h with ⟨m, next, hfields, _⟩
  refine ⟨by rw [hfields], fun q _ => by rw [hfields], ?_, ?_⟩
  · intro horder
    rcases hsent horder with ⟨m, next, hsame, _, _, hlt, hle⟩
    rw [hsame]
    exact InOrder.with_sent (fun hleads q hq hqne _ => horder hleads q hq hqne) hlt hle
  · intro horder
    rcases hsent horder with ⟨m, next, hsame, hto, hresumes, _⟩
    rw [hsame]
    refine ⟨[m], rfl, ?_⟩
    intro m' hm' _
    rw [List.mem_singleton.mp hm']
    exact ⟨by rw [hto]; exact hne, hresumes⟩

theorem Orderly.of_act (h : Act scope n n') : Orderly n n' := by
  cases h with
  | aside hcore _ _ => exact of_core hcore
  | pledge => exact of_same rfl rfl rfl fun h => h
  | say happ hsnap => exact of_send n happ hsnap
  | follow hrole _ hholds | stand _ _ hrole _ _ hholds =>
      refine of_same hholds.id_eq hholds.msgs hholds.matched fun _ => InOrder.of_follower ?_
      rw [hrole]
      decide
  | elect hrole =>
      refine of_same rfl rfl rfl fun _ => InOrder.of_follower ?_
      show n.role ≠ .leader
      rw [hrole]
      decide
  | lead =>
      refine of_msgs rfl rfl (fun _ _ => Nat.zero_le _) fun _ _ p hp _ => ?_
      exact ⟨_, if_pos hp, Nat.succ_pos _, Nat.le_refl _⟩
  | append hrole hlog =>
      refine of_same rfl rfl rfl fun horder =>
        horder.with_log rfl rfl rfl rfl (fun _ _ => rfl) ?_
      have hentries := (RaftLog.append_entries hlog).left
      have hbase := RaftLog.sameBase_append hlog
      rw [RaftLog.lastIndex_eq, RaftLog.lastIndex_eq, hentries, hbase.snapIndex,
        List.length_append]
      lia
  | commit hr =>
      rcases maybeCommit_fields hr with ⟨own, log, hsame, hlast, _⟩
      rw [hsame]
      have hmatch : forall p, p ≠ n.id ->
          Function.update n.matchIndex n.id own p = n.matchIndex p :=
        fun p hp => Function.update_of_ne hp _ _
      refine of_msgs rfl rfl (fun p hp => Nat.le_of_eq (hmatch p hp)) fun horder => ?_
      exact horder.with_log rfl rfl rfl rfl hmatch (Nat.le_of_eq hlast.symm)
  | replicate hrole hp hne hsent => exact sendAppend_orderly hrole hp hne hsent
  | reads | count => exact of_same rfl rfl rfl fun h => h
  | renew => exact of_core (core_renewLeaseAck n _)
  | preCampaign _ _ _ hcore =>
      refine of_same (congrArg Core.id hcore) (congrArg Core.msgs hcore)
        (congrArg Core.matchIndex hcore) fun _ => InOrder.of_follower ?_
      rw [show n'.role = .candidate from congrArg Core.role hcore]
      decide
  | tally => exact of_same rfl rfl rfl fun h => h
  | probe _ htype =>
      rcases htype with htype | htype
      · exact of_send n (by simp [htype]) (by simp [htype])
      · exact of_send n (by simp [htype]) (by simp [htype])
  | settle hlast =>
      refine of_same rfl rfl rfl fun horder => ?_
      exact horder.with_log rfl rfl rfl rfl (fun _ _ => rfl) (Nat.le_of_eq hlast.symm)

theorem Orderly.of_acts (h : Acts scope n n') : Orderly n n' := by
  induction h with
  | refl => exact Orderly.refl n
  | tail _ hact ih => exact ih.trans (Orderly.of_act hact)

/-!
## Leaderships
-/

/-- Where a leader can get: it still leads with the progress it had, it follows,
or its term is over. -/
def Retains (n k : Node) : Prop :=
  n.term < k.term ∨ (k.term = n.term ∧ (k.role = .follower ∨
    (k.role = .leader ∧ forall p, p ≠ n.id -> k.matchIndex p = n.matchIndex p)))

theorem Retains.of_same {k k' : Node} (h : n.Retains k) (hterm : k'.term = k.term)
    (hrole : k'.role = k.role) (hmatch : forall p, p ≠ n.id -> k'.matchIndex p = k.matchIndex p) :
    n.Retains k' := by
  unfold Retains at h ⊢
  rw [hterm, hrole]
  rcases h with h | ⟨hsame, h | ⟨hleads, h⟩⟩
  · exact Or.inl h
  · exact Or.inr ⟨hsame, Or.inl h⟩
  · exact Or.inr ⟨hsame, Or.inr ⟨hleads, fun p hp => (hmatch p hp).trans (h p hp)⟩⟩

theorem Retains.of_core {k k' : Node} (h : n.Retains k) (hcore : k'.core = k.core) :
    n.Retains k' :=
  h.of_same (congrArg Core.term hcore) (congrArg Core.role hcore)
    fun p _ => congrFun (congrArg Core.matchIndex hcore) p

theorem Retains.of_candidate {k k' : Node} (h : n.Retains k) (hrole : k.role = .candidate)
    (hterm : k.term ≤ k'.term) : n.Retains k' := by
  rcases h with h | ⟨_, h | ⟨h, _⟩⟩
  · exact Or.inl (Nat.lt_of_lt_of_le h hterm)
  · rw [hrole] at h
    cases h
  · rw [hrole] at h
    cases h

theorem Retains.of_act {k k' : Node} (h : n.Retains k) (hid : k.id = n.id)
    (hscope : scope.probes = false) (hact : Act scope k k') : n.Retains k' := by
  cases hact with
  | aside hcore _ _ => exact h.of_core hcore
  | pledge | say => exact h.of_same rfl rfl fun _ _ => rfl
  | follow hrole hterm _ =>
      unfold Retains
      rcases h with h | ⟨hsame, _⟩
      · exact Or.inl (Nat.lt_of_lt_of_le h hterm)
      · rw [← hsame]
        rcases Nat.lt_or_eq_of_le hterm with hlt | heq
        · exact Or.inl hlt
        · exact Or.inr ⟨heq.symm, Or.inl hrole⟩
  | stand _ _ _ _ hterm _ =>
      rcases h with h | ⟨hsame, _⟩
      · exact Or.inl (Nat.lt_trans h hterm)
      · rw [hsame] at hterm
        exact Or.inl hterm
  | elect hrole | lead hrole => exact h.of_candidate hrole (Nat.le_refl _)
  | append => exact h.of_same rfl rfl fun _ _ => rfl
  | commit hr =>
      rcases maybeCommit_fields hr with ⟨own, log, hsame, _, _⟩
      rw [hsame]
      refine h.of_same rfl rfl fun p hp => ?_
      rw [← hid] at hp
      exact Function.update_of_ne hp _ _
  | replicate _ _ _ hsent =>
      rcases sendAppend_fields hsent with ⟨_, _, hsame, _⟩
      rw [hsame]
      exact h.of_same rfl rfl fun _ _ => rfl
  | reads | count => exact h.of_same rfl rfl fun _ _ => rfl
  | renew => exact h.of_core (core_renewLeaseAck k _)
  | preCampaign hprobes | tally hprobes | probe hprobes =>
      rw [hscope] at hprobes
      cases hprobes
  | settle => exact h.of_same rfl rfl fun _ _ => rfl

theorem Retains.of_acts (hrole : n.role = .leader) (hscope : scope.probes = false)
    (h : Acts scope n n') : n.Retains n' := by
  induction h with
  | refl => exact Or.inr ⟨rfl, Or.inr ⟨hrole, fun _ _ => rfl⟩⟩
  | tail hacts hact ih => exact ih.of_act (Orderly.of_acts hacts).id_eq hscope hact

/-!
## Operations
-/

/-- What one operation of a node does to the progress of its followers. -/
structure Paced (n n' : Node) : Prop where
  inOrder : n.InOrder -> n'.InOrder
  matched : n.role = .leader -> n'.role = .leader -> n'.term = n.term ->
    forall p, p ≠ n.id -> n.matchIndex p ≤ n'.matchIndex p
  sent : n.InOrder -> exists ms, n'.msgs = n.msgs ++ ms ∧
    forall m, m ∈ ms -> m.type = .app ∨ m.type = .snap -> n'.Resumes m

namespace Paced

theorem of_orderly (h : Orderly n n')
    (hmatch : n.role = .leader -> n'.role = .leader -> n'.term = n.term ->
      forall p, p ≠ n.id -> n.matchIndex p ≤ n'.matchIndex p) : Paced n n' := by
  refine ⟨h.inOrder, hmatch, fun horder => ?_⟩
  rcases h.sent horder with ⟨ms, hmsgs, hms⟩
  exact ⟨ms, hmsgs, fun m hm hkind => (hms m hm hkind).right⟩

theorem of_retains (h : n.Retains n') (hrole : n'.role = .leader) (hterm : n'.term = n.term) :
    forall p, p ≠ n.id -> n'.matchIndex p = n.matchIndex p := by
  rcases h with h | ⟨_, h | ⟨_, h⟩⟩
  · lia
  · rw [hrole] at h
    cases h
  · exact h

theorem of_acts (hscope : scope.probes = false) (h : Acts scope n n') : Paced n n' :=
  of_orderly (Orderly.of_acts h) fun hrole hleads hterm p hp =>
    Nat.le_of_eq (of_retains (Retains.of_acts hrole hscope h) hleads hterm p hp).symm

theorem of_quietActs (h : Acts {} n n') : Paced n n' :=
  of_acts rfl h

theorem refl (n : Node) : Paced n n :=
  of_quietActs ReflTransGen.refl

theorem of_follower (h : Acts { probes := true } n n') (hrole : n.role ≠ .leader) : Paced n n' :=
  of_orderly (Orderly.of_acts h) fun hleads => absurd hleads hrole

theorem head {k : Node} (h : Paced k n') (hid : k.id = n.id) (hrole : k.role = n.role)
    (hterm : k.term = n.term) (hmsgs : k.msgs = n.msgs)
    (hmatch : forall p, n.matchIndex p ≤ k.matchIndex p) (horder : n.InOrder -> k.InOrder) :
    Paced n n' := by
  refine ⟨fun hn => h.inOrder (horder hn), ?_, ?_⟩
  · intro hn hn' hsame p hp
    have hle := h.matched (hrole.trans hn) hn' (hsame.trans hterm.symm) p (by rw [hid]; exact hp)
    exact Nat.le_trans (hmatch p) hle
  · intro hn
    rw [← hmsgs]
    exact h.sent (horder hn)

end Paced

/-- A refusal does not take the progress of its sender back behind what the
sender has acknowledged, unless that is compacted. -/
def FreshRefusal (n : Node) (m : Message) : Prop :=
  m.type = .appResp -> m.reject = true -> n.role = .leader -> m.term = n.term ->
    m.logIndex < (n.nextIndex m.fromId).getD 0 ->
    n.matchIndex m.fromId < max (max m.logIndex 1) n.log.snapIndex

instance (n : Node) (m : Message) : Decidable (n.FreshRefusal m) :=
  inferInstanceAs (Decidable (_ -> _ -> _ -> _ -> _ -> _))

theorem accept_paced (hle : m.logIndex ≤ n.log.lastIndex) (haccept : m.reject = false)
    (h : Acts { acker := some m.fromId } (n.recorded m) n') : Paced n n' := by
  have hpaced : Paced (n.recorded m) n' := Paced.of_acts rfl h
  unfold recorded at hpaced
  rw [haccept, if_neg (by decide)] at hpaced
  split at hpaced
  · next hlt =>
      refine hpaced.head rfl rfl rfl rfl (fun p => ?_) (fun horder => ?_)
      · show n.matchIndex p ≤ Function.update n.matchIndex m.fromId m.logIndex p
        by_cases hp : p = m.fromId
        · rw [hp, Function.update_self]
          exact Nat.le_of_lt hlt
        · rw [Function.update_of_ne hp]
      · intro hrole p hpeer hne
        show exists next, Function.update n.nextIndex m.fromId (some (m.logIndex + 1)) p =
          some next ∧ Function.update n.matchIndex m.fromId m.logIndex p < next ∧ _
        by_cases hp : p = m.fromId
        · rw [hp, Function.update_self, Function.update_self]
          exact ⟨_, rfl, Nat.lt_succ_self _, Nat.succ_le_succ hle⟩
        · rw [Function.update_of_ne hp, Function.update_of_ne hp]
          exact horder hrole p hpeer hne
  · exact hpaced

theorem refuse_paced (hpeer : m.fromId ∈ n.peers) (hne : m.fromId ≠ n.id)
    (hrole : n.role = .leader) (hreject : m.reject = true)
    (hfresh : m.logIndex < (n.nextIndex m.fromId).getD 0 ->
      n.matchIndex m.fromId < max (max m.logIndex 1) n.log.snapIndex)
    (h : (n.recorded m).sendAppend m.fromId = .ok n') : Paced n n' := by
  unfold recorded at h
  rw [if_pos hreject] at h
  split at h
  · next hlt =>
      rcases sendAppend_fields h with ⟨_, _, hfields, _⟩
      have hsent : n.InOrder -> exists m' next',
          n' = { n with
            msgs := n.msgs ++ [m']
            nextIndex := Function.update n.nextIndex m.fromId (some next') } ∧
          m'.toId = m.fromId ∧ n.Resumes m' ∧ n.matchIndex m.fromId < next' ∧
          next' ≤ n.log.lastIndex + 1 := by
        intro horder
        rcases horder hrole _ hpeer hne with ⟨next, hnext, _, hle⟩
        rw [hnext] at hlt
        change m.logIndex < next at hlt
        rcases sendAppend_resumes h (Function.update_self ..) (hfresh (by rw [hnext]; exact hlt))
          (show max m.logIndex 1 ≤ n.log.lastIndex + 1 by lia) (by lia) with
          ⟨m', next', hsame, hrest⟩
        refine ⟨m', next', hsame.trans ?_, hrest⟩
        simp only [Function.update_idem]
      refine ⟨?_, ?_, ?_⟩
      · intro horder
        rcases hsent horder with ⟨_, _, hsame, _, _, hmatch, hle⟩
        rw [hsame]
        exact InOrder.with_sent (fun hleads q hq hqne _ => horder hleads q hq hqne) hmatch hle
      · intro _ _ _ p _
        rw [hfields]
      · intro horder
        rcases hsent horder with ⟨m', _, hsame, _, hresumes, _⟩
        rw [hsame]
        refine ⟨[m'], rfl, fun m'' hm'' _ => ?_⟩
        rw [List.mem_singleton.mp hm'']
        exact hresumes
  · refine Paced.of_orderly (sendAppend_orderly hrole hpeer hne h) fun _ _ _ p _ => ?_
    rcases sendAppend_fields h with ⟨_, _, hfields, _⟩
    rw [hfields]

theorem handleAppResp_paced (hpeer : m.fromId ∈ n.peers) (hne : m.fromId ≠ n.id)
    (htype : m.type = .appResp) (hterm : m.term = n.term)
    (hack : n.role = .leader -> m.reject = false -> m.logIndex ≤ n.log.lastIndex)
    (hfresh : n.FreshRefusal m) (h : n.handleAppResp m = .ok n') : Paced n n' := by
  rcases handleAppResp_acts h with rfl | ⟨hrole, ⟨hreject, hsent⟩ | ⟨haccept, hacts⟩⟩
  · exact Paced.refl _
  · exact refuse_paced hpeer hne hrole hreject (hfresh htype hreject hrole hterm) hsent
  · exact accept_paced (hack hrole haccept) haccept hacts

theorem step_paced {r : Option ProposeError × Node} (h : n.step m = .ok r)
    (hanswer : m.type = .appResp -> m.term = n.term ->
      m.fromId ∈ n.peers ∧ m.fromId ≠ n.id ∧
        (n.role = .leader -> m.reject = false -> m.logIndex ≤ n.log.lastIndex))
    (hfresh : n.FreshRefusal m) : Paced n r.2 := by
  by_cases hprobe : m.type = .preVote
  · rw [step, hprobe] at h
    rcases bind_eq_ok.mp h with ⟨last, hlast, hpure⟩
    cases hpure
    rcases handlePreVote_sends hlast with ⟨answer, htype, rfl⟩
    exact Paced.of_orderly (Orderly.of_send n (by simp [htype]) (by simp [htype]))
      fun _ _ _ _ _ => Nat.le_refl _
  by_cases hgrant : m.type = .preVoteResp
  · rw [step, hgrant] at h
    rcases bind_eq_ok.mp h with ⟨last, hlast, hpure⟩
    cases hpure
    by_cases hrole : n.role = .leader
    · unfold handlePreVoteResp at hlast
      rw [if_pos (Or.inl (by simp [hrole]))] at hlast
      cases hlast
      exact Paced.refl _
    · exact Paced.of_follower (handlePreVoteResp_acts hlast rfl) hrole
  rcases step_acts h hprobe hgrant with hacts | ⟨htype, hterm, hhandled⟩
  · exact Paced.of_quietActs (hacts {})
  · rcases hanswer htype hterm with ⟨hpeer, hne, hack⟩
    exact handleAppResp_paced hpeer hne htype hterm hack hfresh hhandled

theorem tick_paced (h : n.tick = .ok n') : Paced n n' := by
  by_cases htime : n.TimesOut
  · rw [tick_of_timesOut htime] at h
    have hcampaign : Acts { probes := true } _ n' := campaign_acts h htime.left rfl
    have hcounted : Act { probes := true } n
        { n with electionElapsed := n.electionElapsed + 1 } := Act.aside rfl rfl rfl
    exact Paced.of_follower (hcampaign.head hcounted) htime.left
  · exact Paced.of_quietActs (tick_acts h htime)

end Node

/-!
## Runs
-/

namespace Cluster

def before (cl : Cluster) (a : Action) (i : Nat) : Node :=
  if a = .ready i then { cl.nodes i with msgs := [] } else cl.nodes i

def wholeLog (cl : Cluster) (i : Nat) : List Entry :=
  cl.compacted i ++ (cl.nodes i).log.entries

def FreshRefusal (cl : Cluster) : Action -> Prop
  | .deliver k => forall m, m ∈ cl.network[k]? -> (cl.nodes m.toId).FreshRefusal m
  | _ => True

instance (cl : Cluster) (a : Action) : Decidable (cl.FreshRefusal a) :=
  match a with
  | .deliver k =>
      inferInstanceAs
        (Decidable (forall m, m ∈ cl.network[k]? -> (cl.nodes m.toId).FreshRefusal m))
  | .tick _ | .campaign _ | .propose _ _ | .transferLeader _ _ | .readIndex _ _ | .ready _
  | .compactTo _ _ => inferInstanceAs (Decidable True)

end Cluster

variable {cl cl' : Cluster} {s : AbstractState} {a : Action}

theorem ClusterSim.answer {voters : Finset Nat} (h : ClusterSim voters s cl) {m : Message}
    (hm : m ∈ cl.network) (hto : m.toId ∈ voters) (htype : m.type = .appResp)
    (hterm : m.term = (cl.nodes m.toId).term) :
    m.fromId ∈ (cl.nodes m.toId).peers ∧ m.fromId ≠ (cl.nodes m.toId).id ∧
      ((cl.nodes m.toId).role = .leader -> m.reject = false ->
        m.logIndex ≤ (cl.nodes m.toId).log.lastIndex) := by
  have hnode := h.nodes hto
  have hok := h.network hm
  rcases hok with ⟨hfrom, hok⟩
  simp only [htype] at hok
  refine ⟨?_, ?_, ?_⟩
  · exact List.mem_append_left _ (hnode.mem_voters.mpr hfrom)
  · rw [show (cl.nodes m.toId).id = m.toId from hnode.id_eq]
    exact hok.left.symm
  · intro hrole haccept
    rcases hnode.lead_iff.mp hrole with ⟨Q, hlead⟩
    have hlog := h.inv.log.lead_log (by rw [hnode.term_eq]; exact hlead)
    have hle := (h.inv.ack.ack_lead (hok.right haccept)).right
    rw [hnode.term_eq] at hlog
    rw [show (cl.nodes m.toId).log.lastIndex = _ from hnode.view.lastIndex, hlog]
    rw [hterm] at hle
    exact hle

theorem setNode_paced {j : Nat} {n : Node} (h : (cl.nodes j).Paced n) (i : Nat) :
    (cl.nodes i).Paced ((cl.setNode j n).nodes i) := by
  simp only [Cluster.setNode]
  by_cases hi : i = j
  · rw [hi, Function.update_self]
    exact h
  · rw [Function.update_of_ne hi]
    exact Node.Paced.refl _

theorem drain_paced {voters : Finset Nat} (h : ClusterSim voters s cl) {id : Nat}
    (hid : id ∈ voters) {rd : Ready} (hdrain : cl.drain id = .ok (rd, cl')) (i : Nat) :
    (cl.before (.ready id) i).Paced (cl'.nodes i) := by
  rcases bind_eq_ok.mp hdrain with ⟨⟨batch, taken⟩, hready, hrest⟩
  rcases bind_eq_ok.mp hrest with ⟨last, hlast, hpure⟩
  cases hpure
  rcases Node.ready_spec hready with ⟨rfl, _, _, _, hentries⟩
  unfold Cluster.before
  simp only [Cluster.record, Cluster.setNode]
  by_cases hi : i = id
  · rw [hi, if_pos rfl, Function.update_self]
    have hadvanced : exists stable,
        Node.Acts {} { cl.nodes id with msgs := [] } stable ∧
        stable.role = (cl.nodes id).role ∧
        Node.Acts {} (rd.committedEntries.foldl Node.applyConfEntry stable) last :=
      Node.advance_acts hlast
    rcases hadvanced with ⟨stable, hfirst, _, hsecond⟩
    have hnode := h.nodes hid
    have hplain : forall e, e ∈ rd.committedEntries -> e.type = .normal := by
      intro e he
      have hmem := hentries e (List.mem_append_right _ he)
      rw [show (cl.nodes id).log.entries = _ from hnode.view.entries_eq] at hmem
      exact hnode.plain e (List.mem_of_mem_drop hmem)
    rw [Node.foldl_applyConfEntry hplain] at hsecond
    exact Node.Paced.of_quietActs (hfirst.trans hsecond)
  · rw [if_neg (by simp [Ne.symm hi]), Function.update_of_ne hi]
    exact Node.Paced.refl _

theorem exec_paced {cfg : ClusterConfig} (h : ClusterSim cfg.voters s cl)
    (ha : cfg.Allowed cl a) (hfresh : cl.FreshRefusal a) (hexec : cl.exec a = .ok cl') (i : Nat) :
    (cl.before a i).Paced (cl'.nodes i) := by
  cases a with
  | tick id =>
      rcases bind_eq_ok.mp hexec with ⟨n, hn, hpure⟩
      cases hpure
      exact setNode_paced (Node.tick_paced hn) i
  | campaign id =>
      rcases bind_eq_ok.mp hexec with ⟨n, hn, hpure⟩
      cases hpure
      exact setNode_paced
        (Node.Paced.of_follower (Node.campaign_acts hn ha.right rfl) ha.right) i
  | propose id data =>
      rcases bind_eq_ok.mp hexec with ⟨r, hr, hpure⟩
      cases hpure
      refine setNode_paced (Node.step_paced hr ?_ ?_) i
      · intro htype
        cases htype
      · intro htype
        cases htype
  | transferLeader id target =>
      rcases bind_eq_ok.mp hexec with ⟨r, hr, hpure⟩
      cases hpure
      exact setNode_paced (Node.Paced.of_quietActs (Node.transferLeader_acts hr)) i
  | readIndex id read =>
      rcases bind_eq_ok.mp hexec with ⟨r, hr, hpure⟩
      cases hpure
      exact setNode_paced (Node.Paced.of_quietActs (Node.readIndex_acts hr)) i
  | ready id =>
      rcases bind_eq_ok.mp hexec with ⟨⟨rd, drained⟩, hdrain, hpure⟩
      cases hpure
      exact drain_paced h ha hdrain i
  | compactTo id index =>
      rcases bind_eq_ok.mp hexec with ⟨n, hn, hpure⟩
      cases hpure
      exact setNode_paced (Node.Paced.of_quietActs (Node.compactTo_acts hn)) i
  | deliver k =>
      cases hk : cl.network[k]? with
      | none =>
          rw [Cluster.exec, hk] at hexec
          cases hexec
          exact Node.Paced.refl _
      | some m =>
          rw [Cluster.exec, hk] at hexec
          rcases bind_eq_ok.mp hexec with ⟨r, hr, hpure⟩
          cases hpure
          have hm := List.mem_of_getElem? hk
          exact setNode_paced (Node.step_paced hr (h.answer hm (ha m hk)) (hfresh m hk)) i

def ClusterConfig.Fresh (cfg : ClusterConfig) (cl : Cluster) (a : Action) : Prop :=
  cfg.Allowed cl a ∧ cl.FreshRefusal a

instance (cfg : ClusterConfig) (cl : Cluster) (a : Action) : Decidable (cfg.Fresh cl a) :=
  inferInstanceAs (Decidable (_ ∧ _))

/-- The progress of a follower in a state of a leader.  A leader that another one
has replaced without its knowledge can have more on record than the follower has
kept; the terms tell the two cases apart. -/
structure Cluster.WellOrdered (cl : Cluster) (i p : Nat) : Prop where
  next : exists next, (cl.nodes i).nextIndex p = some next ∧
    (cl.nodes i).matchIndex p < next ∧ next ≤ (cl.nodes i).log.lastIndex + 1
  agrees : (cl.nodes p).term ≤ (cl.nodes i).term ->
    (cl.nodes i).matchIndex p ≤ (cl.wholeLog i).length ∧
      (cl.wholeLog i).take ((cl.nodes i).matchIndex p) <+: cl.wholeLog p

theorem ClusterSim.wholeLog {voters : Finset Nat} {i : Nat} (h : ClusterSim voters s cl)
    (hi : i ∈ voters) : cl.wholeLog i = s.log i := by
  have hview : View (cl.nodes i).log (s.log i) := (h.nodes hi).view
  rw [Cluster.wholeLog, h.compacted hi, hview.entries_eq, List.take_append_drop]

theorem ClusterSim.agrees {voters : Finset Nat} {i p : Nat} (h : ClusterSim voters s cl)
    (hi : i ∈ voters) (hp : p ∈ voters) (hrole : (cl.nodes i).role = .leader)
    (hterm : (cl.nodes p).term ≤ (cl.nodes i).term) :
    (cl.nodes i).matchIndex p ≤ (cl.wholeLog i).length ∧
      (cl.wholeLog i).take ((cl.nodes i).matchIndex p) <+: cl.wholeLog p := by
  have hnode := h.nodes hi
  have hpeer := h.nodes hp
  rw [h.wholeLog hi, h.wholeLog hp]
  rcases hnode.lead_iff.mp hrole with ⟨Q, hlead⟩
  have hlog : s.log i = s.termLog (cl.nodes i).term := by
    have hown := h.inv.log.lead_log (n := i) (by rw [hnode.term_eq]; exact hlead)
    rw [hnode.term_eq] at hown
    exact hown
  rcases hnode.matched hrole p with hzero | ⟨j, hle, hack⟩
  · rw [show (cl.nodes i).matchIndex p = 0 from hzero, List.take_zero]
    exact ⟨Nat.zero_le _, List.nil_prefix⟩
  · rw [hlog]
    refine ⟨Nat.le_trans hle (h.inv.ack.ack_lead hack).right, ?_⟩
    rcases h.inv.ack.ack_kept hack hle with hkept | ⟨w, _, hlow, hhigh, _⟩
    · exact hkept
    · -- A later leader cannot have taken it away: the follower knows of none.
      have hpterm : s.term p = (cl.nodes p).term := hpeer.term_eq
      have hlow : (cl.nodes i).term < w := hlow
      lia

structure OrderedSim (voters : Finset Nat) (s : AbstractState) (cl : Cluster) : Prop where
  sim : ClusterSim voters s cl
  inOrder : forall i, i ∈ voters -> (cl.nodes i).InOrder

namespace OrderedSim

variable {cfg : ClusterConfig}

theorem initial (h : cfg.Initial cl) : OrderedSim cfg.voters State.init cl := by
  refine ⟨ClusterSim.initial h, fun i hi => Node.InOrder.of_follower ?_⟩
  have hcore := Node.core_newNodeConfig (h.left i hi)
  rw [show (cl.nodes i).role = .follower from congrArg Core.role hcore]
  decide

theorem exec (h : OrderedSim cfg.voters s cl) (ha : cfg.Fresh cl a) (hexec : cl.exec a = .ok cl') :
    exists s', OrderedSim cfg.voters s' cl' ∧ Grows s s' := by
  rcases h.sim.exec ha.left with ⟨cl'', s', hexec', hsim, hgrows⟩
  rw [hexec] at hexec'
  cases hexec'
  refine ⟨s', ⟨hsim, fun i hi => ?_⟩, hgrows⟩
  apply (exec_paced h.sim ha.left ha.right hexec i).inOrder
  unfold Cluster.before
  split
  · exact h.inOrder i hi
  · exact h.inOrder i hi

theorem leads {s' : AbstractState} {i : Nat} (h : OrderedSim cfg.voters s cl)
    (h' : OrderedSim cfg.voters s' cl') (hgrows : Grows s s') (hi : i ∈ cfg.voters)
    (hrole : (cl.nodes i).role = .leader) (hterm : (cl'.nodes i).term = (cl.nodes i).term) :
    (cl'.nodes i).role = .leader := by
  rcases (h.sim.nodes hi).lead_iff.mp hrole with ⟨Q, hlead⟩
  apply (h'.sim.nodes hi).lead_iff.mpr
  refine ⟨Q, ?_⟩
  rw [show (cl'.nodes i).core.term = _ from hterm]
  exact hgrows.lead hlead

theorem run (h : OrderedSim cfg.voters s cl) (hrun : Reach Cluster.exec cfg.Fresh cl cl') :
    exists s', OrderedSim cfg.voters s' cl' ∧ Grows s s' ∧
      forall i, i ∈ cfg.voters -> (cl.nodes i).role = .leader ->
        (cl'.nodes i).term = (cl.nodes i).term ->
        forall p, p ≠ i -> (cl.nodes i).matchIndex p ≤ (cl'.nodes i).matchIndex p := by
  refine hrun.invariant (I := fun c => exists s', OrderedSim cfg.voters s' c ∧ Grows s s' ∧
    forall i, i ∈ cfg.voters -> (cl.nodes i).role = .leader ->
      (c.nodes i).term = (cl.nodes i).term ->
      forall p, p ≠ i -> (cl.nodes i).matchIndex p ≤ (c.nodes i).matchIndex p) ?_
    ⟨s, h, Grows.refl s, fun _ _ _ _ _ _ => Nat.le_refl _⟩
  rintro c b c' ⟨s1, h1, hgrows1, hmatch⟩ hb hexec
  rcases h1.exec hb hexec with ⟨s2, h2, hgrows2⟩
  refine ⟨s2, h2, hgrows1.trans hgrows2, ?_⟩
  intro i hi hrole hterm p hp
  -- Terms only grow, so the term was the same before the last action.
  have hsame : (c.nodes i).term = (cl.nodes i).term := by
    have hlow := hgrows1.term i
    have hhigh := hgrows2.term i
    rw [show s.term i = (cl.nodes i).term from (h.sim.nodes hi).term_eq,
      show s1.term i = (c.nodes i).term from (h1.sim.nodes hi).term_eq] at hlow
    rw [show s1.term i = (c.nodes i).term from (h1.sim.nodes hi).term_eq,
      show s2.term i = (c'.nodes i).term from (h2.sim.nodes hi).term_eq] at hhigh
    lia
  have hleads := h.leads h1 hgrows1 hi hrole hsame
  have hleads' := h.leads h2 (hgrows1.trans hgrows2) hi hrole hterm
  refine Nat.le_trans (hmatch i hi hrole hsame p hp) ?_
  have hpaced := exec_paced h1.sim hb.left hb.right hexec i
  have hid : (c.nodes i).id = i := (h1.sim.nodes hi).id_eq
  unfold Cluster.before at hpaced
  split at hpaced
  · exact hpaced.matched hleads hleads' (hterm.trans hsame.symm) p (by
      show p ≠ (c.nodes i).id
      rw [hid]
      exact hp)
  · exact hpaced.matched hleads hleads' (hterm.trans hsame.symm) p (by
      rw [hid]
      exact hp)

theorem wellOrdered {i p : Nat} (h : OrderedSim cfg.voters s cl) (hi : i ∈ cfg.voters)
    (hp : p ∈ cfg.voters) (hne : p ≠ i) (hrole : (cl.nodes i).role = .leader) :
    cl.WellOrdered i p := by
  have hnode := h.sim.nodes hi
  refine ⟨h.inOrder i hi hrole p ?_ ?_, h.sim.agrees hi hp hrole⟩
  · exact List.mem_append_left _ (hnode.mem_voters.mpr hp)
  · rw [show (cl.nodes i).id = i from hnode.id_eq]
    exact hne

end OrderedSim

/-- In every state of a run in which no refusal takes progress back too far, the
progress of every follower is well ordered.  While a leader leads, what a
follower has acknowledged never shrinks, and everything it sends starts at or
after that. -/
theorem progress_wellOrdered (cfg : ClusterConfig) {start cl : Cluster} (hstart : cfg.Initial start)
    (hreach : Reach Cluster.exec cfg.Fresh start cl) :
    (forall i p, i ∈ cfg.voters -> p ∈ cfg.voters -> p ≠ i -> (cl.nodes i).role = .leader ->
      cl.WellOrdered i p) ∧
    (forall cl', Reach Cluster.exec cfg.Fresh cl cl' -> forall i, i ∈ cfg.voters ->
      (cl.nodes i).role = .leader -> (cl'.nodes i).term = (cl.nodes i).term ->
      (cl'.nodes i).role = .leader ∧
        forall p, p ≠ i -> (cl.nodes i).matchIndex p ≤ (cl'.nodes i).matchIndex p) ∧
    (forall a cl', cfg.Fresh cl a -> cl.exec a = .ok cl' -> forall i, i ∈ cfg.voters ->
      exists ms, (cl'.nodes i).msgs = (cl.before a i).msgs ++ ms ∧
        forall m, m ∈ ms -> m.type = .app ∨ m.type = .snap -> (cl'.nodes i).Resumes m) := by
  rcases (OrderedSim.initial hstart).run hreach with ⟨s, hs, _, _⟩
  refine ⟨?_, ?_, ?_⟩
  · intro i p hi hp hne hrole
    exact hs.wellOrdered hi hp hne hrole
  · intro cl' hrun i hi hrole hterm
    rcases hs.run hrun with ⟨s', hs', hgrows, hmatch⟩
    exact ⟨hs.leads hs' hgrows hi hrole hterm, hmatch i hi hrole hterm⟩
  · intro a cl' ha hexec i hi
    apply (exec_paced hs.sim ha.left ha.right hexec i).sent
    unfold Cluster.before
    split
    · exact hs.inOrder i hi
    · exact hs.inOrder i hi

namespace ClusterConfig

/-- Node 2 takes over with the vote of node 3, whose log is empty.  Its first
append is refused, the next one is acknowledged. -/
def catchUp : List Action :=
  electOne ++
    [.campaign 2, .ready 2, .deliver 12, .ready 3, .deliver 13, .ready 2, .deliver 15, .ready 3,
      .deliver 16, .ready 2, .deliver 18, .ready 3, .deliver 19, .ready 2, .deliver 20, .ready 3,
      .deliver 21, .ready 2]

/-- Then the refusal is delivered a second time. -/
def lateRefusal : List Action :=
  catchUp ++ [.deliver 19]

end ClusterConfig

/-- The refusal is fresh when it comes first. -/
theorem progress_wellOrdered_catchUp :
    exists cl, Reach Cluster.exec ClusterConfig.three.Fresh ClusterConfig.three.start cl ∧
      (cl.nodes 2).role = .leader ∧ (cl.nodes 2).matchIndex 3 = 2 ∧ cl.WellOrdered 2 3 := by
  have hrun : okWith (runWhile Cluster.exec ClusterConfig.three.Fresh ClusterConfig.catchUp
      ClusterConfig.three.start)
      (fun cl => decide ((cl.nodes 2).role = .leader) &&
        decide ((cl.nodes 2).matchIndex 3 = 2)) := by
    decide +kernel
  rcases exists_of_okWith hrun with ⟨cl, hcl, hlast⟩
  rw [Bool.and_eq_true, decide_eq_true_iff, decide_eq_true_iff] at hlast
  have hreach := Reach.of_runWhile hcl
  have hordered :=
    (progress_wellOrdered ClusterConfig.three ClusterConfig.three.initial_start hreach).left
  exact ⟨cl, hreach, hlast.left, hlast.right,
    hordered 2 3 (by decide) (by decide) (by decide) hlast.left⟩

/-- After the second delivery the leader starts over before what node 3 has
acknowledged, and tells it so. -/
theorem not_wellOrdered_lateRefusal :
    exists cl, ClusterConfig.three.Reachable cl ∧ (cl.nodes 2).role = .leader ∧
      ¬ cl.WellOrdered 2 3 ∧
      exists m, m ∈ (cl.nodes 2).msgs ∧ m.type = .app ∧ ¬ (cl.nodes 2).Resumes m := by
  have hrun : okWith (ClusterConfig.three.run ClusterConfig.lateRefusal)
      (fun cl => decide ((cl.nodes 2).role = .leader) &&
        (decide ((cl.nodes 2).nextIndex 3 = some 1 ∧ (cl.nodes 2).matchIndex 3 = 2) &&
          (cl.nodes 2).msgs.any fun m => decide (m.type = .app ∧ ¬ (cl.nodes 2).Resumes m))) := by
    decide +kernel
  rcases exists_of_okWith hrun with ⟨cl, hcl, hlast⟩
  rw [Bool.and_eq_true, Bool.and_eq_true, List.any_eq_true, decide_eq_true_iff,
    decide_eq_true_iff] at hlast
  rcases hlast with ⟨hrole, ⟨hnext, hmatch⟩, m, hm, hsent⟩
  refine ⟨cl, ClusterConfig.reachable_run hcl, hrole, ?_, m, hm, of_decide_eq_true hsent⟩
  rintro ⟨⟨next, hsome, hlt, _⟩, _⟩
  rw [hnext] at hsome
  cases hsome
  lia

end Raft
end Basalt
