import Basalt.Raft.Cluster
import Basalt.Raft.Operations
import Basalt.Raft.Refinement

/-!
# State-machine safety

In every run of a cluster the nodes hand out prefixes of one sequence of
entries, and no operation panics.  Every state of a run is related to a state
of the replicated-log protocol, whose agreement theorem does the rest.
-/

namespace Basalt
namespace Raft

open Lib Lib.ReplicatedLog Relation

structure ClusterSim (voters : Finset Nat) (s : AbstractState) (cl : Cluster) :
    Prop where
  inv : Inv voters Entry.term s
  tidy : Tidy s
  nodes : forall {i}, i ∈ voters -> NodeSim voters s i (cl.nodes i).core
  network : forall {m}, m ∈ cl.network -> MsgOK voters s m
  handedOut : forall {i}, i ∈ voters ->
    cl.handedOut i = (s.log i).take (cl.nodes i).log.applied
  compacted : forall {i}, i ∈ voters ->
    cl.compacted i = (s.log i).take (cl.nodes i).log.snapIndex

variable {voters : Finset Nat} {s s' : AbstractState} {cl : Cluster} {i : Nat}

namespace ClusterSim

/-!
## Operations that take small transitions only
-/

theorem setNode (h : ClusterSim voters s cl)
    (hsteps : Steps voters Entry.term i s s') (htidy : Tidy s') {n : Node}
    (hn : NodeSim voters s' i n.core)
    (hbase : RaftLog.SameBase (cl.nodes i).log n.log) (hi : i ∈ voters) :
    ClusterSim voters s' (cl.setNode i n) := by
  have hg := h.inv.grows_steps hsteps
  have hnode := h.nodes hi
  have htake : forall {k j}, k ∈ voters -> j ≤ (cl.nodes k).log.applied ->
      (s'.log k).take j = (s.log k).take j := by
    intro k j hk hj
    have hkeep := (h.inv.keeps_steps hsteps k).take
    rw [(h.nodes hk).commit_eq] at hkeep
    have hle : j ≤ (cl.nodes k).log.committed :=
      Nat.le_trans hj (cl.nodes k).log.applied_le
    have hcut := congrArg (List.take j) hkeep
    rw [List.take_take, List.take_take] at hcut
    change (s'.log k).take (min j (cl.nodes k).log.committed) =
      (s.log k).take (min j (cl.nodes k).log.committed) at hcut
    rw [Nat.min_eq_left hle] at hcut
    exact hcut
  constructor
  · exact h.inv.steps hsteps
  · exact htidy
  · intro k hk
    by_cases hki : k = i
    · subst hki
      simp only [Cluster.setNode, Function.update_self]
      exact hn
    · simp only [Cluster.setNode, Function.update_of_ne hki]
      exact (h.nodes hk).elsewhere h.inv.commit hg (Steps.elsewhere hsteps) hki
  · intro m hm
    exact (h.network hm).grows h.inv.commit hg
  · intro k hk
    have happ : ((cl.setNode i n).nodes k).log.applied =
        (cl.nodes k).log.applied := by
      by_cases hki : k = i
      · subst hki
        simp only [Cluster.setNode, Function.update_self]
        exact hbase.applied
      · simp only [Cluster.setNode, Function.update_of_ne hki]
    rw [happ, htake hk (Nat.le_refl _)]
    exact h.handedOut hk
  · intro k hk
    have hsnap : ((cl.setNode i n).nodes k).log.snapIndex =
        (cl.nodes k).log.snapIndex := by
      by_cases hki : k = i
      · subst hki
        simp only [Cluster.setNode, Function.update_self]
        exact hbase.snapIndex
      · simp only [Cluster.setNode, Function.update_of_ne hki]
    rw [hsnap, htake hk (cl.nodes k).log.snapIndex_le]
    exact h.compacted hk

/-- The transitions of one operation of a node, matched from its start. -/
theorem operation (h : ClusterSim voters s cl) (hzero : 0 ∉ voters)
    (hi : i ∈ voters) {inp : Input} (hinput : InputOK voters s i inp)
    {c : Core} (hc : NodeSim voters s i c) {α : Type} {view : α -> Core}
    {post : α -> Prop} {x : Except Panic α}
    (hx : Outcome (Move inp) (Stuck inp) c view post x) :
    exists a, x = .ok a ∧ post a ∧ Moves inp c (view a) ∧
      Matched voters s i (view a) := by
  have hinput' : forall {s'}, Steps voters Entry.term i s s' ->
      InputOK voters s' i inp :=
    fun hsteps => hinput.grows h.inv.commit (h.inv.grows_steps hsteps)
  have hsafe := hx.safe (I := Matched voters s i)
    (by
      rintro c1 c2 ⟨s1, hsteps, htidy, hsim⟩ hmove
      have hinv := h.inv.steps hsteps
      rcases matched_move hinv htidy hsim hzero hi (hinput' hsteps) hmove with
        ⟨s2, hsteps', htidy', hsim'⟩
      exact ⟨s2, hsteps.trans hsteps', htidy', hsim'⟩)
    (by
      rintro c1 ⟨s1, hsteps, htidy, hsim⟩
      exact not_stuck (h.inv.steps hsteps) htidy hsim hi (hinput' hsteps))
    (Matched.stay h.tidy hc)
  rcases hsafe with ⟨a, ha, hmatched, hpost⟩
  subst ha
  exact ⟨a, rfl, hpost, hx.left, hmatched⟩

theorem run_operation_from (h : ClusterSim voters s cl) (hzero : 0 ∉ voters)
    (hi : i ∈ voters) {inp : Input} (hinput : InputOK voters s i inp)
    {c : Core} (hc : NodeSim voters s i c) (hlog : c.log = (cl.nodes i).log)
    {α : Type} (node : α -> Node) {post : α -> Prop} {x : Except Panic α}
    (hx : Outcome (Move inp) (Stuck inp) c (fun a => (node a).core) post x) :
    exists a s', x = .ok a ∧ ClusterSim voters s' (cl.setNode i (node a)) ∧ Grows s s' := by
  rcases h.operation hzero hi hinput hc hx with
    ⟨a, ha, _, hmoves, s', hsteps, htidy, hsim⟩
  have hbase := (Moves.sameBase hmoves).left
  rw [hlog] at hbase
  exact ⟨a, s', ha, h.setNode hsteps htidy hsim hbase hi, h.inv.grows_steps hsteps⟩

theorem run_operation (h : ClusterSim voters s cl) (hzero : 0 ∉ voters)
    (hi : i ∈ voters) {inp : Input} (hinput : InputOK voters s i inp)
    {α : Type} (node : α -> Node) {post : α -> Prop} {x : Except Panic α}
    (hx : Outcome (Move inp) (Stuck inp) (cl.nodes i).core
      (fun a => (node a).core) post x) :
    exists a s', x = .ok a ∧ ClusterSim voters s' (cl.setNode i (node a)) ∧ Grows s s' :=
  h.run_operation_from hzero hi hinput (h.nodes hi) rfl node hx

end ClusterSim

theorem InputOK.none : InputOK voters s i {} := by
  intro m hm
  cases hm

/-!
## Draining the effects
-/

theorem getLast?_drop_numbered {F : List Entry} (hF : Numbered F) {k : Nat}
    (hk : k < F.length) :
    exists e, (F.drop k).getLast? = some e ∧ e.index = F.length := by
  have hlast : F[F.length - 1]? = some F[F.length - 1] :=
    List.getElem?_eq_getElem (by lia)
  refine ⟨F[F.length - 1], ?_, ?_⟩
  · rw [List.getLast?_drop, if_neg (by lia), List.getLast?_eq_getElem?, hlast]
  · have hidx := hF _ _ hlast
    lia

theorem take_append_drop_take {F : List Entry} {a b : Nat} (hab : a ≤ b) :
    F.take a ++ (F.drop a).take (b - a) = F.take b := by
  have hb : b = a + (b - a) := by lia
  rw [hb, List.take_add]
  congr 3
  lia

theorem NodeSim.ready {n : Node} (h : NodeSim voters s i n.core) :
    exists rd, n.ready = .ok (rd, { n with msgs := [] }) ∧
      rd.messages = n.msgs ∧ rd.entries = (s.log i).drop n.stabled ∧
      rd.committedEntries =
        ((s.log i).take (min n.log.committed n.stabled)).drop n.log.applied := by
  have hview : View n.log (s.log i) := h.view
  have hsnap := n.log.snapIndex_le
  have happlied : n.log.applied ≤ n.stabled := h.applied_le
  have hents : n.unstableEntries = .ok ((s.log i).drop n.stabled) := by
    rw [Node.unstableEntries, hview.lastIndex]
    split
    · rw [hview.slice (by lia) (by lia) (Nat.le_refl _),
        List.take_of_length_le (by rw [List.length_drop])]
    · rw [List.drop_eq_nil_of_le (by lia)]
      rfl
  have hcommitted : n.nextCommitted =
      .ok (((s.log i).take (min n.log.committed n.stabled)).drop
        n.log.applied) := by
    rw [Node.nextCommitted]
    split
    · have hle := hview.committed_le
      rw [hview.slice hsnap (by lia) (by lia), List.drop_take]
    · rw [List.drop_eq_nil_of_le (by rw [List.length_take]; lia)]
      rfl
  refine ⟨{
      hardState := if n.hardState ≠ n.prevHard then some n.hardState else none
      entries := (s.log i).drop n.stabled
      committedEntries :=
        ((s.log i).take (min n.log.committed n.stabled)).drop n.log.applied
      messages := n.msgs
      readStates := n.readyReadStates }, ?_, rfl, rfl, rfl⟩
  rw [Node.ready, hents, hcommitted]
  rfl

namespace ClusterSim

theorem advanceStable (h : ClusterSim voters s cl) (hzero : 0 ∉ voters)
    (hi : i ∈ voters) {n : Node} (hn : NodeSim voters s i n.core)
    {ents : List Entry} (hents : ents = (s.log i).drop n.stabled) :
    exists n' s', n.advanceStable ents = .ok n' ∧
      Steps voters Entry.term i s s' ∧ Tidy s' ∧
      NodeSim voters s' i n'.core ∧ RaftLog.SameBase n.log n'.log ∧
      n.stabled ≤ n'.stabled := by
  rcases Nat.lt_or_ge n.stabled (s.log i).length with hlt | hge
  · rcases getLast?_drop_numbered hn.view.numbered hlt with ⟨e, hlast, hidx⟩
    have hstable : NodeSim voters s i { n with stabled := e.index }.core :=
      { hn with
        applied_le := by
          change n.log.applied ≤ e.index
          rw [hidx]
          exact hn.view.applied_le }
    rcases h.operation hzero hi InputOK.none hstable
      (Node.maybeCommit_effect (n := { n with stabled := e.index })) with
      ⟨r, hr, _, hmoves, s', hsteps, htidy, hsim⟩
    have hbase := Moves.sameBase hmoves
    refine ⟨r.2, s', ?_, hsteps, htidy, hsim, hbase.left, ?_⟩
    · rw [Node.advanceStable, hents, hlast]
      change (({ n with stabled := e.index } : Node).maybeCommit >>= fun r =>
        Except.ok r.2) = _
      rw [hr]
      rfl
    · have hsame : r.2.stabled = e.index := hbase.right
      lia
  · refine ⟨n, s, ?_, ReflTransGen.refl, h.tidy, hn,
      RaftLog.SameBase.refl _, Nat.le_refl _⟩
    rw [Node.advanceStable, hents, List.drop_eq_nil_of_le hge]
    rfl

end ClusterSim

theorem NodeSim.advanceApplied {n : Node} (h : NodeSim voters s i n.core)
    {ents : List Entry} {upTo : Nat} (hupTo : upTo ≤ n.log.committed)
    (hstabled : upTo ≤ n.stabled)
    (hents : ents = ((s.log i).take upTo).drop n.log.applied) :
    exists n', n.advanceApplied ents = .ok n' ∧
      NodeSim voters s i n'.core ∧
      n'.log.applied = max n.log.applied upTo ∧
      n'.log.snapIndex = n.log.snapIndex := by
  have hview : View n.log (s.log i) := h.view
  have hlen : ((s.log i).take upTo).length = upTo := by
    have hle := hview.committed_le
    rw [List.length_take]
    lia
  rcases Nat.lt_or_ge n.log.applied upTo with hlt | hge
  · rcases getLast?_drop_numbered
      (hview.numbered.of_pre (List.take_prefix upTo _))
      (k := n.log.applied) (by lia) with ⟨e, hlast, hidx⟩
    rcases hview.appliedTo (i := e.index) (by lia) (by lia) with
      ⟨log, hlog, hview', hcom, happ, hsnap⟩
    have hconf : ents.foldl Node.applyConfEntry n = n := by
      apply Node.foldl_applyConfEntry
      intro d hd
      rw [hents] at hd
      exact h.plain d (List.mem_of_mem_take (List.mem_of_mem_drop hd))
    refine ⟨{ n with log := log }, ?_, ?_, ?_, hsnap⟩
    · rw [Node.advanceApplied]
      simp only [hconf]
      rw [hents, hlast]
      change (n.log.appliedTo e.index >>= fun log =>
        Except.ok { n with log := log }) = _
      rw [hlog]
      rfl
    · exact
        { h with
          view := hview'
          commit_eq := h.commit_eq.trans hcom.symm
          applied_le := by
            change log.applied ≤ n.stabled
            lia }
    · change log.applied = _
      lia
  · refine ⟨n, ?_, h, by lia, rfl⟩
    rw [Node.advanceApplied, hents, List.drop_eq_nil_of_le (by lia)]
    rfl

namespace ClusterSim

theorem drain (h : ClusterSim voters s cl) (hzero : 0 ∉ voters)
    (hi : i ∈ voters) :
    exists rd cl' s', cl.drain i = .ok (rd, cl') ∧ ClusterSim voters s' cl' ∧
      Grows s s' := by
  have hnode := h.nodes hi
  rcases hnode.ready with ⟨rd, hready, hmsgs, hents, hcommitted⟩
  let n : Node := cl.nodes i
  let n0 : Node :=
    { n with msgs := [], prevHard := rd.hardState.getD n.prevHard }
  have h0 : NodeSim voters s i n0.core :=
    { hnode with msgs_ok := fun hm => by cases hm }
  rcases h.advanceStable hzero hi h0 hents with
    ⟨n1, s', hn1, hsteps, htidy, h1, hbase, hstabled⟩
  have hkeep := h.inv.keeps_steps hsteps i
  have hupTo : min n.log.committed n.stabled ≤ n1.log.committed := by
    have hle := hkeep.commit
    rw [hnode.commit_eq, h1.commit_eq] at hle
    exact Nat.le_trans (Nat.min_le_left _ _) hle
  have htake : (s'.log i).take (min n.log.committed n.stabled) =
      (s.log i).take (min n.log.committed n.stabled) := by
    have hcut := congrArg (List.take (min n.log.committed n.stabled))
      hkeep.take
    rw [hnode.commit_eq, List.take_take, List.take_take] at hcut
    change (s'.log i).take (min (min n.log.committed n.stabled)
      n.log.committed) = (s.log i).take (min (min n.log.committed n.stabled)
      n.log.committed) at hcut
    rw [Nat.min_eq_left (Nat.min_le_left _ _)] at hcut
    exact hcut
  have happlied : n1.log.applied = n.log.applied := hbase.applied
  have hbatch : rd.committedEntries =
      ((s'.log i).take (min n.log.committed n.stabled)).drop
        n1.log.applied := by
    rw [htake, happlied]
    exact hcommitted
  rcases h1.advanceApplied hupTo
    (Nat.le_trans (Nat.min_le_right _ _) hstabled) hbatch with
    ⟨n2, hn2, h2, happ2, hsnap2⟩
  let n3 : Node := n2.dropServed rd.readStates
  have h3 : NodeSim voters s' i n3.core := { h2 with }
  refine ⟨rd, cl.record i rd n3, s', ?_, ?_, h.inv.grows_steps hsteps⟩
  · rw [Cluster.drain, hready]
    change ((n0.advanceStable rd.entries >>= fun n =>
      n.advanceApplied rd.committedEntries >>= fun n =>
        Except.ok (n.dropServed rd.readStates)) >>= _) = _
    rw [hn1]
    change ((n1.advanceApplied rd.committedEntries >>= fun n =>
        Except.ok (n.dropServed rd.readStates)) >>= _) = _
    rw [hn2]
    rfl
  · -- The cluster with the node moved, before the batch is recorded.
    have hle : n.log.applied ≤ min n.log.committed n.stabled :=
      Nat.le_min.mpr ⟨n.log.applied_le, hnode.applied_le⟩
    have hmoved : ClusterSim voters s' (cl.setNode i
        { n3 with log := n1.log }) := by
      refine h.setNode hsteps htidy ?_ hbase hi
      exact
        { h3 with
          view := h1.view
          commit_eq := h1.commit_eq
          applied_le := by
            change n1.log.applied ≤ n2.stabled
            have h2applied : n2.log.applied ≤ n2.stabled := h2.applied_le
            lia }
    constructor
    · exact hmoved.inv
    · exact htidy
    · intro k hk
      by_cases hki : k = i
      · subst hki
        simp only [Cluster.record, Cluster.setNode, Function.update_self]
        exact h3
      · have hother := hmoved.nodes hk
        simp only [Cluster.record, Cluster.setNode, Function.update_of_ne hki] at hother ⊢
        exact hother
    · intro m hm
      rcases List.mem_append.mp hm with hm | hm
      · exact hmoved.network hm
      · rw [hmsgs] at hm
        exact (hnode.msgs_ok hm).grows h.inv.commit
          (h.inv.grows_steps hsteps)
    · intro k hk
      by_cases hki : k = i
      · subst hki
        simp only [Cluster.record, Cluster.setNode, Function.update_self]
        have hfinal : n3.log.applied = min n.log.committed n.stabled := by
          change n2.log.applied = _
          lia
        rw [hfinal, htake, hcommitted, h.handedOut hk, List.drop_take]
        exact take_append_drop_take hle
      · have hother := hmoved.handedOut hk
        simp only [Cluster.record, Cluster.setNode, Function.update_of_ne hki] at hother ⊢
        exact hother
    · intro k hk
      have hother := hmoved.compacted hk
      by_cases hki : k = i
      · subst hki
        simp only [Cluster.record, Cluster.setNode, Function.update_self] at hother ⊢
        rw [hother]
        change _ = (s'.log k).take n2.log.snapIndex
        rw [hsnap2]
      · simp only [Cluster.record, Cluster.setNode, Function.update_of_ne hki] at hother ⊢
        exact hother

theorem compactTo (h : ClusterSim voters s cl) (hi : i ∈ voters) {index : Nat}
    (hindex : index ≤ (cl.nodes i).log.applied) :
    exists cl', cl.exec (.compactTo i index) = .ok cl' ∧
      ClusterSim voters s cl' := by
  have hnode := h.nodes hi
  have hview : View (cl.nodes i).log (s.log i) := hnode.view
  rcases hview.compactTo hindex with ⟨log, hlog, hview', hcom, happ, hsnap⟩
  refine ⟨cl.shrink i { cl.nodes i with log := log }, ?_, ?_⟩
  · rw [Cluster.exec, Node.compactTo, hlog]
    rfl
  · constructor
    · exact h.inv
    · exact h.tidy
    · intro k hk
      by_cases hki : k = i
      · subst hki
        simp only [Cluster.shrink, Cluster.setNode, Function.update_self]
        exact
          { hnode with
            view := hview'
            commit_eq := hnode.commit_eq.trans hcom.symm
            applied_le := by
              change log.applied ≤ _
              rw [happ]
              exact hnode.applied_le }
      · simp only [Cluster.shrink, Cluster.setNode, Function.update_of_ne hki]
        exact h.nodes hk
    · exact h.network
    · intro k hk
      by_cases hki : k = i
      · subst hki
        simp only [Cluster.shrink, Cluster.setNode, Function.update_self]
        rw [happ]
        exact h.handedOut hk
      · simp only [Cluster.shrink, Cluster.setNode, Function.update_of_ne hki]
        exact h.handedOut hk
    · intro k hk
      by_cases hki : k = i
      · subst hki
        simp only [Cluster.shrink, Cluster.setNode, Function.update_self]
        rw [h.compacted hk, hview.entries_eq]
        exact take_append_drop_take (by rw [hsnap]; exact Nat.le_max_left _ _)
      · simp only [Cluster.shrink, Cluster.setNode, Function.update_of_ne hki]
        exact h.compacted hk

/-- Every allowed action succeeds and leads to a related state. -/
theorem readIndex (h : ClusterSim voters s cl) (hzero : 0 ∉ voters)
    (hi : i ∈ voters) (id : Nat) :
    exists r s', (cl.nodes i).readIndex id = .ok r ∧
      ClusterSim voters s' (cl.setNode i r.2) ∧ Grows s s' := by
  rcases Node.readIndex_effect (n := cl.nodes i) {} id with hfalse | ⟨_, _, heffect⟩
  · exact ⟨_, s, hfalse, h.setNode ReflTransGen.refl h.tidy (h.nodes hi)
      (RaftLog.SameBase.refl _) hi, Grows.refl s⟩
  · have hqueued : NodeSim voters s i ((cl.nodes i).core.queueRead id) :=
      { h.nodes hi with }
    exact h.run_operation_from hzero hi InputOK.none hqueued rfl Prod.snd heffect

theorem exec {cfg : ClusterConfig} (h : ClusterSim cfg.voters s cl)
    {a : Action} (ha : cfg.Allowed cl a) :
    exists cl' s', cl.exec a = .ok cl' ∧ ClusterSim cfg.voters s' cl' ∧ Grows s s' := by
  have hzero := cfg.zero_notMem
  cases a with
  | tick id =>
      rcases h.run_operation hzero ha InputOK.none (fun n => n)
        (Node.tick_effect (n := cl.nodes id)) with ⟨n, s', hn, hsim, hgrows⟩
      exact ⟨cl.setNode id n, s', by rw [Cluster.exec, hn]; rfl, hsim, hgrows⟩
  | campaign id =>
      rcases h.run_operation hzero ha.left InputOK.none (fun n => n)
        (Node.campaign_effect (n := cl.nodes id) ha.right) with
        ⟨n, s', hn, hsim, hgrows⟩
      exact ⟨cl.setNode id n, s', by rw [Cluster.exec, hn]; rfl, hsim, hgrows⟩
  | propose id data =>
      let m : Message := { type := .prop, entries := [{ data := data }] }
      have hinput : InputOK cfg.voters s id (Input.of m) := by
        intro m' hm'
        cases hm'
        exact Or.inl rfl
      rcases h.run_operation hzero ha hinput Prod.snd
        (Node.step_input_effect (n := cl.nodes id)) with ⟨r, s', hr, hsim, hgrows⟩
      exact ⟨cl.setNode id r.2, s', by
        rw [Cluster.exec, Node.propose, hr]
        rfl, hsim, hgrows⟩
  | transferLeader id target =>
      rcases h.run_operation hzero ha InputOK.none Prod.snd
        (Node.transferLeader_effect (n := cl.nodes id) target) with
        ⟨r, s', hr, hsim, hgrows⟩
      exact ⟨cl.setNode id r.2, s', by rw [Cluster.exec, hr]; rfl, hsim, hgrows⟩
  | readIndex id read =>
      rcases h.readIndex hzero ha read with ⟨r, s', hr, hsim, hgrows⟩
      exact ⟨cl.setNode id r.2, s', by rw [Cluster.exec, hr]; rfl, hsim, hgrows⟩
  | ready id =>
      rcases h.drain hzero ha with ⟨rd, cl', s', hdrain, hsim, hgrows⟩
      exact ⟨cl', s', by rw [Cluster.exec, hdrain]; rfl, hsim, hgrows⟩
  | compactTo id index =>
      rcases h.compactTo ha.left ha.right with ⟨cl', hexec, hsim⟩
      exact ⟨cl', s, hexec, hsim, Grows.refl s⟩
  | deliver k =>
      cases hk : cl.network[k]? with
      | none => exact ⟨cl, s, by rw [Cluster.exec, hk]; rfl, h, Grows.refl s⟩
      | some m =>
          have hok := h.network (List.mem_of_getElem? hk)
          have hto : m.toId ∈ cfg.voters := ha m hk
          have hinput : InputOK cfg.voters s m.toId (Input.of m) := by
            intro m' hm'
            cases hm'
            exact Or.inr ⟨rfl, hok⟩
          rcases h.run_operation hzero hto hinput Prod.snd
            Node.step_input_effect with ⟨r, s', hr, hsim, hgrows⟩
          exact ⟨cl.setNode m.toId r.2, s', by
            rw [Cluster.exec, hk]
            change ((cl.nodes m.toId).step m >>= fun r =>
              Except.ok (cl.setNode m.toId r.2)) = _
            rw [hr]
            rfl, hsim, hgrows⟩

end ClusterSim

/-!
## Runs
-/

theorem Node.core_newNodeConfig {cfg : Config} {n : Node}
    (h : Node.newNodeConfig cfg = .ok n) :
    n.core =
      { id := cfg.id
        voters := cfg.peers.dedup
        learners := []
        role := .follower
        term := 0
        vote := 0
        votes := ∅
        log := newLog
        nextIndex := fun _ => none
        matchIndex := fun _ => 0
        msgs := []
        stabled := 0
        readReady := []
        roundReads := []
        pendingReads := []
        readAcks := ∅
        useLease := cfg.leaseRead
        prevHard := {} } := by
  rw [newNodeConfig, newNode] at h
  split at h
  · cases h
  · cases h
    rw [core_resetElectionTimer]
    rfl

theorem ClusterSim.initial {cfg : ClusterConfig} (h : cfg.Initial cl) :
    ClusterSim cfg.voters State.init cl := by
  rcases h with ⟨hnodes, hnetwork, hhanded, hcompacted⟩
  have hnil : forall k, ([] : List Entry) = ([] : List Entry).take k :=
    fun k => List.take_nil.symm
  constructor
  · exact Inv.init
  · intro t x hx
    cases hx
  · intro i hi
    have hcore := Node.core_newNodeConfig (hnodes i hi)
    rw [hcore]
    constructor
    · exact cfg.config_id i hi
    · exact List.nodup_dedup _
    · rw [← cfg.config_peers i hi]
      ext p
      simp only [List.mem_toFinset, List.mem_dedup]
    · rfl
    · rfl
    · exact View.newLog
    · intro e he
      cases he
    · rfl
    · exact False.elim
    · exact fun hv => absurd rfl hv
    · intro v hv
      cases hv
    · constructor
      · intro hrole
        cases hrole
      · rintro ⟨Q, hQ⟩
        cases hQ
    · intro hrole
      cases hrole
    · intro hrole
      cases hrole
    · exact Nat.le_refl _
    · intro m hm
      cases hm
  · intro m hm
    rw [hnetwork] at hm
    cases hm
  · intro i hi
    rw [hhanded i]
    exact hnil _
  · intro i hi
    rw [hcompacted i]
    exact hnil _

theorem ClusterConfig.Reachable.sim {cfg : ClusterConfig}
    (h : cfg.Reachable cl) : exists s, ClusterSim cfg.voters s cl := by
  rcases h with ⟨start, hinit, hreach⟩
  refine hreach.invariant (I := fun cl => exists s, ClusterSim cfg.voters s cl) ?_
    ⟨State.init, ClusterSim.initial hinit⟩
  rintro cl a cl' ⟨s, hs⟩ hallowed hexec
  rcases hs.exec hallowed with ⟨cl'', s', hexec', hs', _⟩
  rw [hexec] at hexec'
  cases hexec'
  exact ⟨s', hs'⟩

/-- What a node has handed out is the applied part of its log, compacted
entries included: the indexes from one to `applied`, each once. -/
structure HandsOutLog (cl : Cluster) (i : Nat) : Prop where
  eq_log : cl.handedOut i =
    (cl.compacted i ++ (cl.nodes i).log.entries).take (cl.nodes i).log.applied
  length : (cl.handedOut i).length = (cl.nodes i).log.applied
  numbered : forall k e, (cl.handedOut i)[k]? = some e -> e.index = k + 1

theorem ClusterSim.handsOutLog (h : ClusterSim voters s cl) (hi : i ∈ voters) :
    HandsOutLog cl i := by
  have hview : View (cl.nodes i).log (s.log i) := (h.nodes hi).view
  have happlied := hview.applied_le
  refine ⟨?_, ?_, ?_⟩
  · rw [h.handedOut hi, h.compacted hi, hview.entries_eq,
      List.take_append_drop]
  · rw [h.handedOut hi, List.length_take]
    lia
  · rw [h.handedOut hi]
    exact hview.numbered.of_pre (List.take_prefix _ _)

theorem ClusterSim.handedOut_comparable (h : ClusterSim voters s cl)
    {j : Nat} (hi : i ∈ voters) (hj : j ∈ voters) :
    cl.handedOut i <+: cl.handedOut j ∨ cl.handedOut j <+: cl.handedOut i := by
  have hpre : forall {k}, k ∈ voters ->
      cl.handedOut k <+: (s.log k).take (s.commit k) := by
    intro k hk
    rw [h.handedOut hk, (h.nodes hk).commit_eq]
    exact List.take_prefix_take_left (cl.nodes k).log.applied_le
  rcases h.inv.agreement i j with hij | hji
  · exact List.prefix_or_prefix_of_prefix ((hpre hi).trans hij) (hpre hj)
  · exact List.prefix_or_prefix_of_prefix (hpre hi) ((hpre hj).trans hji)

/-- State-machine safety: in every state of every run the nodes have handed
out exactly the applied parts of their logs, any two of these sequences agree,
and no operation that can come next panics. -/
theorem stateMachine_safety (cfg : ClusterConfig) {cl : Cluster}
    (h : cfg.Reachable cl) :
    (forall i, i ∈ cfg.voters -> HandsOutLog cl i) ∧
    (forall i j, i ∈ cfg.voters -> j ∈ cfg.voters ->
      cl.handedOut i <+: cl.handedOut j ∨ cl.handedOut j <+: cl.handedOut i) ∧
    (forall a, cfg.Allowed cl a -> exists cl', cl.exec a = .ok cl') := by
  rcases h.sim with ⟨s, hs⟩
  refine ⟨fun i hi => hs.handsOutLog hi,
    fun i j hi hj => hs.handedOut_comparable hi hj, ?_⟩
  intro a ha
  rcases hs.exec ha with ⟨cl', _, hexec, _⟩
  exact ⟨cl', hexec⟩

theorem stateMachine_safety_electOne :
    exists cl, ClusterConfig.three.run ClusterConfig.electOne = .ok cl ∧
      (cl.handedOut 1).length = 1 ∧
      (forall i j, i ∈ ClusterConfig.three.voters ->
        j ∈ ClusterConfig.three.voters ->
        cl.handedOut i <+: cl.handedOut j ∨
          cl.handedOut j <+: cl.handedOut i) := by
  have hrun : okWith (ClusterConfig.three.run ClusterConfig.electOne)
      (fun cl => (cl.handedOut 1).length = 1) := by
    decide +kernel
  rcases exists_of_okWith hrun with ⟨cl, hcl, hone⟩
  have hreach := ClusterConfig.reachable_run hcl
  exact ⟨cl, hcl, of_decide_eq_true hone,
    (stateMachine_safety ClusterConfig.three hreach).right.left⟩

end Raft
end Basalt
