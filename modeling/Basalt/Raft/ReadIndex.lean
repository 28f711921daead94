import Basalt.Raft.StateMachineSafety

/-!
# Linearizable reads

A read is requested from a leader, waits for a round of acknowledgements that
confirms the leader, and is served at the commit index the leader had when it
was requested.  Next to the cluster the model keeps the requests, each with
the cluster as it was then, and the reads that were served.
-/

namespace Basalt
namespace Raft

open Lib Lib.ReplicatedLog Relation

/-- A read that node `node` has taken, when the cluster was `before`. -/
structure ReadCall where
  node : Nat
  read : Nat
  before : Cluster

structure Served where
  node : Nat
  state : ReadState
  applied : Nat

structure ReadRun where
  cluster : Cluster
  calls : List ReadCall := []
  served : List Served := []

namespace ReadCall

def term (call : ReadCall) : Nat :=
  (call.before.nodes call.node).term

def index (call : ReadCall) : Nat :=
  (call.before.nodes call.node).log.committed

/-- No member had committed more than the node that took the read. -/
def Fresh (voters : Finset Nat) (call : ReadCall) : Prop :=
  forall i, i ∈ voters -> (call.before.nodes i).log.committed ≤ call.index

/-- A majority had already moved on to higher terms. -/
def Overtaken (voters : Finset Nat) (call : ReadCall) : Prop :=
  exists Q, IsQuorum voters Q ∧
    forall v, v ∈ Q -> call.term < (call.before.nodes v).term

end ReadCall

namespace ReadRun

def exec (g : ReadRun) (a : Action) : Except Panic ReadRun :=
  match a with
  | .readIndex id read => do
      let (taken, n) <- (g.cluster.nodes id).readIndex read
      let call : ReadCall := { node := id, read := read, before := g.cluster }
      pure
        { g with
          cluster := g.cluster.setNode id n
          calls := if taken then g.calls ++ [call] else g.calls }
  | .ready id => do
      let (rd, cl) <- g.cluster.drain id
      let applied := (g.cluster.nodes id).log.applied
      pure
        { g with
          cluster := cl
          served := g.served ++ rd.readStates.map fun r =>
            { node := id, state := r, applied := applied } }
  | a => do
      let cl <- g.cluster.exec a
      pure { g with cluster := cl }

def NewRead (g : ReadRun) : Action -> Prop
  | .readIndex id read =>
      forall call, call ∈ g.calls -> call.node = id -> call.read ≠ read
  | _ => True

instance (g : ReadRun) (a : Action) : Decidable (g.NewRead a) :=
  match a with
  | .readIndex id read =>
      inferInstanceAs (Decidable
        (forall call, call ∈ g.calls -> call.node = id -> call.read ≠ read))
  | .tick _ | .campaign _ | .propose _ _ | .transferLeader _ _ | .ready _
  | .compactTo _ _ | .deliver _ => inferInstanceAs (Decidable True)

/-- An acknowledgement that is counted for a round comes from a node that had
not moved on to a higher term when the reads of the round were requested. -/
def Timely (g : ReadRun) : Action -> Prop
  | .deliver k =>
      forall m, m ∈ g.cluster.network[k]? -> (g.cluster.nodes m.toId).Counts m ->
        forall call, call ∈ g.calls -> call.node = m.toId ->
          (exists r, r ∈ (g.cluster.nodes m.toId).roundReads ∧ r.id = call.read) ->
          (call.before.nodes m.fromId).term ≤ m.term
  | _ => True

instance (g : ReadRun) (a : Action) : Decidable (g.Timely a) :=
  match a with
  | .deliver k =>
      inferInstanceAs (Decidable (forall m, m ∈ g.cluster.network[k]? ->
        (g.cluster.nodes m.toId).Counts m ->
        forall call, call ∈ g.calls -> call.node = m.toId ->
          (exists r, r ∈ (g.cluster.nodes m.toId).roundReads ∧ r.id = call.read) ->
          (call.before.nodes m.fromId).term ≤ m.term))
  | .tick _ | .campaign _ | .propose _ _ | .transferLeader _ _ | .readIndex _ _
  | .ready _ | .compactTo _ _ => inferInstanceAs (Decidable True)

/-- Every read that was served saw what was committed when it was requested,
and was served from a state that contains it. -/
def Linearizable (voters : Finset Nat) (g : ReadRun) : Prop :=
  forall x, x ∈ g.served ->
    x.state.index ≤ x.applied ∧
    forall call, call ∈ g.calls -> call.node = x.node -> call.read = x.state.id ->
      forall i, i ∈ voters -> (call.before.nodes i).log.committed ≤ x.state.index

instance (voters : Finset Nat) (g : ReadRun) : Decidable (g.Linearizable voters) :=
  inferInstanceAs (Decidable (forall x, x ∈ g.served ->
    x.state.index ≤ x.applied ∧
    forall call, call ∈ g.calls -> call.node = x.node -> call.read = x.state.id ->
      forall i, i ∈ voters ->
        (call.before.nodes i).log.committed ≤ x.state.index))

end ReadRun

/-!
## What a leader knows when it takes a read
-/

/-- A leader that has committed in its term is up to date, unless a majority
has moved on. -/
theorem ClusterSim.fresh_or_overtaken {voters : Finset Nat} {s : AbstractState}
    {cl : Cluster} (h : ClusterSim voters s cl) {call : ReadCall}
    (hbefore : call.before = cl) (hi : call.node ∈ voters)
    (hrole : (cl.nodes call.node).role = .leader)
    (hterm : (cl.nodes call.node).log.term (cl.nodes call.node).log.committed =
      some (cl.nodes call.node).term) :
    call.Fresh voters ∨ call.Overtaken voters := by
  have hnode := h.nodes hi
  have hcall : call.term = s.term call.node := by
    rw [ReadCall.term, hbefore]
    exact hnode.term_eq.symm
  by_cases hnew : exists u x, s.lead u = some x ∧ s.term call.node < u
  · rcases hnew with ⟨u, ⟨l, Q⟩, hlead, hlt⟩
    rcases h.inv.log.lead_quorum hlead with ⟨hQ, hvotes⟩
    refine Or.inr ⟨Q, hQ, fun v hv => ?_⟩
    have hvoted := h.inv.vote.vote_le (hvotes v hv)
    have hv : s.term v = (cl.nodes v).term := (h.nodes (hQ.left hv)).term_eq
    rw [hcall, hbefore, ← hv]
    lia
  · rcases hnode.lead_of_role hrole with ⟨Q, hlead⟩
    have hown : termAt Entry.term (s.log call.node) (s.commit call.node) =
        s.term call.node := by
      rw [hnode.commit_eq, hnode.term_eq]
      exact (hnode.view.bounds_of_term hterm).right.right
    have hnewest : forall u x, s.lead u = some x -> u ≤ s.term call.node := by
      intro u x hx
      by_contra hgt
      exact hnew ⟨u, x, hx, Nat.lt_of_not_le hgt⟩
    refine Or.inl fun i hi' => ?_
    have hle := h.inv.commit_le_of_newest hlead hown hnewest i
    rw [hnode.commit_eq, (h.nodes hi').commit_eq] at hle
    rw [ReadCall.index, hbefore]
    exact hle

/-!
## The reads of one node
-/

/-- The reads node `i` holds belong to requests: those that wait were taken in
its term, the acknowledgements counted for a round are timely, and those that
are confirmed were fresh. -/
structure ReadsOK (voters : Finset Nat) (calls : List ReadCall) (i : Nat)
    (c : Core) : Prop where
  id_eq : c.id = i
  voters_nodup : c.voters.Nodup
  voters_eq : c.voters.toFinset = voters
  strict : c.useLease = false
  waiting : c.role = .leader -> forall r, r ∈ c.pendingReads ++ c.roundReads ->
    exists call, call ∈ calls ∧ call.node = i ∧ call.read = r.id ∧
      call.index = r.index ∧ call.term = c.term
  counted : c.role = .leader -> c.roundReads ≠ [] -> forall v, v ∈ c.readAcks ->
    v ∈ voters ∧ forall call, call ∈ calls -> call.node = i ->
      (exists r, r ∈ c.roundReads ∧ r.id = call.read) ->
      (call.before.nodes v).term ≤ c.term
  confirmed : forall r, r ∈ c.readReady -> exists call, call ∈ calls ∧
    call.node = i ∧ call.read = r.id ∧ call.index = r.index ∧ call.Fresh voters

/-- The requests are numbered by their nodes, and each of them was fresh or
can no longer be confirmed. -/
structure CallsOK (voters : Finset Nat) (calls : List ReadCall) : Prop where
  cases : forall call, call ∈ calls -> call.Fresh voters ∨ call.Overtaken voters
  unique : forall a b, a ∈ calls -> b ∈ calls -> a.node = b.node ->
    a.read = b.read -> a = b

namespace ReadsOK

variable {voters : Finset Nat} {calls : List ReadCall} {i : Nat} {c c' : Core}
variable {inp : Input}

theorem self_counted (h : ReadsOK voters calls i c) (hcalls : CallsOK voters calls)
    (hi : i ∈ voters) (hrole : c.role = .leader) {reads : List PendingRead}
    (hreads : forall r, r ∈ reads -> r ∈ c.pendingReads ++ c.roundReads) :
    forall v, v ∈ ({c.id} : Finset Nat) ->
      v ∈ voters ∧ forall call, call ∈ calls -> call.node = i ->
        (exists r, r ∈ reads ∧ r.id = call.read) ->
        (call.before.nodes v).term ≤ c.term := by
  intro v hv
  rw [Finset.mem_singleton, h.id_eq] at hv
  subst hv
  refine ⟨hi, ?_⟩
  rintro call hcall hnode ⟨r, hr, hread⟩
  rcases h.waiting hrole r (hreads r hr) with ⟨own, hown, hnode', hread', _, hterm⟩
  have hsame : call = own := hcalls.unique call own hcall hown
    (hnode.trans hnode'.symm) (hread.symm.trans hread'.symm)
  rw [hsame, ← hterm, ReadCall.term, hnode']

/-- A round that a majority has confirmed was requested by a node that was up
to date. -/
theorem fresh_of_round (h : ReadsOK voters calls i c) (hcalls : CallsOK voters calls)
    (hrole : c.role = .leader) (hquorum : c.quorum ≤ c.readAcks.card)
    {r : PendingRead} (hr : r ∈ c.roundReads) :
    exists call, call ∈ calls ∧ call.node = i ∧ call.read = r.id ∧
      call.index = r.index ∧ call.Fresh voters := by
  have hne : c.roundReads ≠ [] := List.ne_nil_of_mem hr
  rcases h.waiting hrole r (List.mem_append_right _ hr) with
    ⟨call, hcall, hnode, hread, hindex, hterm⟩
  refine ⟨call, hcall, hnode, hread, hindex, ?_⟩
  rcases hcalls.cases call hcall with hfresh | ⟨Q, hQ, hahead⟩
  · exact hfresh
  · have hacks : IsQuorum voters c.readAcks := by
      refine ⟨fun v hv => (h.counted hrole hne v hv).left, ?_⟩
      rw [← h.voters_eq, List.toFinset_card_of_nodup h.voters_nodup]
      exact hquorum
    rcases hacks.meet hQ with ⟨v, hv, hvQ⟩
    have hle := (h.counted hrole hne v hv).right call hcall hnode ⟨r, hr, hread.symm⟩
    have hlt := hahead v hvQ
    lia

theorem move (h : ReadsOK voters calls i c) (hcalls : CallsOK voters calls)
    (hi : i ∈ voters) (hcounts : inp.counts = false) (hmove : Move inp c c') :
    ReadsOK voters calls i c' := by
  cases hmove with
  | adopt | campaign | preCampaign | follow =>
      exact { h with
        waiting := fun hr => by cases hr
        counted := fun hr => by cases hr }
  | lead =>
      exact { h with
        waiting := fun _ r hr => by cases hr
        counted := fun _ hne => absurd rfl hne }
  | openRound hrole hround hpending =>
      have hsub : forall r, r ∈ c.pendingReads -> r ∈ c.pendingReads ++ c.roundReads :=
        fun r hr => List.mem_append_left _ hr
      exact { h with
        waiting := fun _ r hr => h.waiting hrole r (hsub r hr)
        counted := fun _ _ => h.self_counted hcalls hi hrole hsub }
  | rearm hrole hround =>
      exact { h with
        counted := fun _ _ => h.self_counted hcalls hi hrole
          fun r hr => List.mem_append_right _ hr }
  | countAck hcounts' =>
      rw [hcounts] at hcounts'
      cases hcounts'
  | closeRound hrole hconfirmed =>
      have hquorum : c.quorum ≤ c.readAcks.card := by
        rcases hconfirmed with hlease | hquorum
        · rw [h.strict] at hlease
          cases hlease
        · exact hquorum
      exact { h with
        waiting := fun _ r hr => by
          rw [List.append_nil] at hr
          exact h.waiting hrole r (List.mem_append_left _ hr)
        counted := fun _ hne => absurd rfl hne
        confirmed := by
          intro r hr
          rcases List.mem_append.mp hr with hr | hr
          · exact h.confirmed r hr
          · rcases List.mem_map.mp hr with ⟨p, hp, rfl⟩
            exact h.fresh_of_round hcalls hrole hquorum hp }
  | _ => exact { h with }

theorem moves (h : ReadsOK voters calls i c) (hcalls : CallsOK voters calls)
    (hi : i ∈ voters) (hcounts : inp.counts = false) (hmoves : Moves inp c c') :
    ReadsOK voters calls i c' := by
  induction hmoves with
  | refl => exact h
  | tail _ hlast ih => exact ih.move hcalls hi hcounts hlast

theorem count (h : ReadsOK voters calls i c) {v : Nat} (hv : v ∈ voters)
    (htimely : forall call, call ∈ calls -> call.node = i ->
      (exists r, r ∈ c.roundReads ∧ r.id = call.read) ->
      (call.before.nodes v).term ≤ c.term) :
    ReadsOK voters calls i { c with readAcks := insert v c.readAcks } :=
  { h with
    counted := by
      intro hrole hne u hu
      rcases Finset.mem_insert.mp hu with rfl | hu
      · exact ⟨hv, htimely⟩
      · exact h.counted hrole hne u hu }

theorem other_call (h : ReadsOK voters calls i c) {call : ReadCall}
    (hne : call.node ≠ i) : ReadsOK voters (calls ++ [call]) i c := by
  have hkeep : forall {x}, x ∈ calls -> x ∈ calls ++ [call] :=
    fun hx => List.mem_append_left _ hx
  refine { h with waiting := ?_, counted := ?_, confirmed := ?_ }
  · intro hrole r hr
    rcases h.waiting hrole r hr with ⟨x, hx, hrest⟩
    exact ⟨x, hkeep hx, hrest⟩
  · intro hrole hround v hv
    rcases h.counted hrole hround v hv with ⟨hvoter, hall⟩
    refine ⟨hvoter, fun x hx hnode hread => ?_⟩
    rcases List.mem_append.mp hx with hx | hx
    · exact hall x hx hnode hread
    · rw [List.mem_singleton.mp hx] at hnode
      exact absurd hnode hne
  · intro r hr
    rcases h.confirmed r hr with ⟨x, hx, hrest⟩
    exact ⟨x, hkeep hx, hrest⟩

theorem own_call (h : ReadsOK voters calls i c) {call : ReadCall}
    (hnode : call.node = i) (hindex : call.index = c.log.committed)
    (hterm : call.term = c.term) (hrole : c.role = .leader)
    (hnew : forall x, x ∈ calls -> x.node = i -> x.read ≠ call.read) :
    ReadsOK voters (calls ++ [call]) i (c.queueRead call.read) := by
  have hkeep : forall {x}, x ∈ calls -> x ∈ calls ++ [call] :=
    fun hx => List.mem_append_left _ hx
  refine { h with waiting := ?_, counted := ?_, confirmed := ?_ }
  · intro _ r hr
    have hcases : r ∈ c.pendingReads ++ c.roundReads ∨
        r = { id := call.read, index := c.log.committed } := by
      rcases List.mem_append.mp hr with hr | hr
      · rcases List.mem_append.mp hr with hr | hr
        · exact Or.inl (List.mem_append_left _ hr)
        · exact Or.inr (List.mem_singleton.mp hr)
      · exact Or.inl (List.mem_append_right _ hr)
    rcases hcases with hr | rfl
    · rcases h.waiting hrole r hr with ⟨x, hx, hrest⟩
      exact ⟨x, hkeep hx, hrest⟩
    · exact ⟨call, List.mem_append_right _ (List.mem_singleton_self call), hnode, rfl,
        hindex, hterm⟩
  · intro _ hround v hv
    rcases h.counted hrole hround v hv with ⟨hvoter, hall⟩
    refine ⟨hvoter, fun x hx hxnode hread => ?_⟩
    rcases List.mem_append.mp hx with hx | hx
    · exact hall x hx hxnode hread
    · -- The round in flight was opened by earlier requests.
      rw [List.mem_singleton.mp hx] at hread
      rcases hread with ⟨r, hr, hread⟩
      rcases h.waiting hrole r (List.mem_append_right _ hr) with
        ⟨own, hown, hownNode, hownRead, _⟩
      exact absurd (hownRead.trans hread) (hnew own hown hownNode)
  · intro r hr
    rcases h.confirmed r hr with ⟨x, hx, hrest⟩
    exact ⟨x, hkeep hx, hrest⟩

end ReadsOK

/-!
## Draining and reads
-/

/-- A batch serves confirmed reads that are applied, and changes the waiting
reads only through a commit. -/
theorem ClusterSim.drain_reads {voters : Finset Nat} {s : AbstractState}
    {cl cl' : Cluster} {rd : Ready} {i : Nat} {calls : List ReadCall}
    (h : ClusterSim voters s cl) (hcalls : CallsOK voters calls) (hi : i ∈ voters)
    (hreads : ReadsOK voters calls i (cl.nodes i).core)
    (hdrain : cl.drain i = .ok (rd, cl')) :
    ReadsOK voters calls i (cl'.nodes i).core ∧
      (forall j, j ≠ i -> cl'.nodes j = cl.nodes j) ∧
      rd.readStates = (cl.nodes i).readyReadStates := by
  have hnode := h.nodes hi
  have hview : View (cl.nodes i).log (s.log i) := hnode.view
  rcases bind_eq_ok.mp hdrain with ⟨⟨rd', n⟩, hready, hrest⟩
  rcases bind_eq_ok.mp hrest with ⟨n', hadvance, hpure⟩
  cases hpure
  rcases Node.ready_spec hready with ⟨rfl, _, hstates, _, hmem⟩
  refine ⟨?_, ?_, hstates⟩
  · have hplain : forall e, e ∈ rd.committedEntries -> e.type = .normal := by
      intro e he
      have hlog := hmem e (List.mem_append_right _ he)
      rw [hview.entries_eq] at hlog
      exact hnode.plain e (List.mem_of_mem_drop hlog)
    rcases Node.advance_spec hplain hadvance with ⟨stabled, c, log, hmoves, _, hcore⟩
    have hstart : ReadsOK voters calls i
        { (cl.nodes i).core with
          msgs := []
          prevHard := rd.hardState.getD (cl.nodes i).prevHard
          stabled := stabled } :=
      { hreads with }
    have hc := hstart.moves hcalls hi rfl hmoves
    simp only [Cluster.record, Cluster.setNode, Function.update_self]
    rw [hcore]
    exact { hc with
      confirmed := fun r hr => hc.confirmed r (List.mem_of_mem_filter hr) }
  · intro j hj
    simp only [Cluster.record, Cluster.setNode, Function.update_of_ne hj]

/-!
## Runs
-/

namespace ReadRun

variable {cfg : ClusterConfig} {g g' : ReadRun} {a : Action}

def Allowed (cfg : ClusterConfig) (g : ReadRun) (a : Action) : Prop :=
  cfg.Allowed g.cluster a ∧ g.NewRead a

instance (cfg : ClusterConfig) (g : ReadRun) (a : Action) :
    Decidable (g.Allowed cfg a) :=
  inferInstanceAs (Decidable (cfg.Allowed g.cluster a ∧ g.NewRead a))

structure Inv (cfg : ClusterConfig) (g : ReadRun) : Prop where
  sim : exists s, ClusterSim cfg.voters s g.cluster
  calls : CallsOK cfg.voters g.calls
  nodes : forall i, i ∈ cfg.voters ->
    ReadsOK cfg.voters g.calls i (g.cluster.nodes i).core
  served : forall x, x ∈ g.served -> x.state.index ≤ x.applied ∧
    exists call, call ∈ g.calls ∧ call.node = x.node ∧ call.read = x.state.id ∧
      call.index = x.state.index ∧ call.Fresh cfg.voters

theorem Inv.linearizable (h : g.Inv cfg) : g.Linearizable cfg.voters := by
  intro x hx
  rcases h.served x hx with ⟨happlied, own, hown, hnode, hread, hindex, hfresh⟩
  refine ⟨happlied, fun call hcall hnode' hread' i hi => ?_⟩
  have hsame : call = own := h.calls.unique call own hcall hown
    (hnode'.trans hnode.symm) (hread'.trans hread.symm)
  rw [hsame, ← hindex]
  exact hfresh i hi

theorem exec_cluster (h : g.exec a = .ok g') : g.cluster.exec a = .ok g'.cluster := by
  cases a with
  | readIndex id read | ready id =>
      rcases bind_eq_ok.mp h with ⟨r, hr, hpure⟩
      cases hpure
      rw [Cluster.exec, hr]
      rfl
  | _ =>
      rcases bind_eq_ok.mp h with ⟨cl, hcl, hpure⟩
      cases hpure
      exact hcl

theorem Inv.sim_exec (h : g.Inv cfg) (ha : cfg.Allowed g.cluster a)
    (hexec : g.exec a = .ok g') : exists s, ClusterSim cfg.voters s g'.cluster := by
  rcases h.sim with ⟨s, hs⟩
  rcases hs.exec ha with ⟨cl', s', hcl', hs', _⟩
  rw [exec_cluster hexec] at hcl'
  cases hcl'
  exact ⟨s', hs'⟩

theorem Inv.setNode (h : g.Inv cfg) {i : Nat} {n : Node}
    (hn : ReadsOK cfg.voters g.calls i n.core) :
    forall j, j ∈ cfg.voters ->
      ReadsOK cfg.voters g.calls j ((g.cluster.setNode i n).nodes j).core := by
  intro j hj
  by_cases hji : j = i
  · subst hji
    simp only [Cluster.setNode, Function.update_self]
    exact hn
  · simp only [Cluster.setNode, Function.update_of_ne hji]
    exact h.nodes j hj

theorem Inv.quiet (h : g.Inv cfg) {i : Nat} (hi : i ∈ cfg.voters) {inp : Input}
    (hcounts : inp.counts = false) {n : Node}
    (hmoves : Moves inp (g.cluster.nodes i).core n.core) :
    forall j, j ∈ cfg.voters ->
      ReadsOK cfg.voters g.calls j ((g.cluster.setNode i n).nodes j).core :=
  h.setNode ((h.nodes i hi).moves h.calls hi hcounts hmoves)

theorem Inv.deliver (h : g.Inv cfg) {k : Nat} {m : Message}
    (hk : g.cluster.network[k]? = some m) (hto : m.toId ∈ cfg.voters)
    (htimely : g.Timely (.deliver k)) {r : Option ProposeError × Node}
    (hr : (g.cluster.nodes m.toId).step m = .ok r) :
    forall j, j ∈ cfg.voters ->
      ReadsOK cfg.voters g.calls j ((g.cluster.setNode m.toId r.2).nodes j).core := by
  have hinp : ({ message := some m } : Input).message = some m := rfl
  by_cases hcounts : (g.cluster.nodes m.toId).Counts m
  · rcases Node.step_counted hinp hcounts hr with hsame |
      ⟨c, hmoves, hround, hrole, hterm, hrest⟩
    · rw [hsame]
      exact h.setNode (h.nodes m.toId hto)
    · rcases h.sim with ⟨s, hs⟩
      have hfrom : m.fromId ∈ cfg.voters := (hs.network (List.mem_of_getElem? hk)).left
      have hc := (h.nodes m.toId hto).moves h.calls hto rfl hmoves
      have hcount : ReadsOK cfg.voters g.calls m.toId
          { c with readAcks := insert m.fromId c.readAcks } := by
        refine hc.count hfrom ?_
        intro call hcall hnode hread
        rw [hround] at hread
        have hle := htimely m hk hcounts call hcall hnode hread
        rw [hterm, ← hcounts.right.left]
        exact hle
      exact h.setNode (hcount.moves h.calls hto rfl hrest)
  · have heffect := Node.step_effect (fun hc => absurd hc hcounts) hinp
    exact h.quiet hto rfl (heffect.returned hr).left

theorem Inv.readIndex (h : g.Inv cfg) {i read : Nat} (hi : i ∈ cfg.voters)
    (hnew : forall call, call ∈ g.calls -> call.node = i -> call.read ≠ read)
    {r : Bool × Node} (hr : (g.cluster.nodes i).readIndex read = .ok r) :
    let call : ReadCall := { node := i, read := read, before := g.cluster }
    let calls := if r.1 then g.calls ++ [call] else g.calls
    CallsOK cfg.voters calls ∧ (forall x, x ∈ g.calls -> x ∈ calls) ∧
      forall j, j ∈ cfg.voters ->
        ReadsOK cfg.voters calls j ((g.cluster.setNode i r.2).nodes j).core := by
  intro call calls
  rcases Node.readIndex_effect (n := g.cluster.nodes i) {} read with hfalse |
    ⟨hrole, hterm, heffect⟩
  · rw [hfalse] at hr
    cases hr
    exact ⟨h.calls, fun x hx => hx, h.setNode (h.nodes i hi)⟩
  · rcases heffect.returned hr with ⟨hmoves, htaken⟩
    have hcalls : calls = g.calls ++ [call] := if_pos htaken
    rw [hcalls]
    have hok : CallsOK cfg.voters (g.calls ++ [call]) := by
      constructor
      · intro x hx
        rcases List.mem_append.mp hx with hx | hx
        · exact h.calls.cases x hx
        · rw [List.mem_singleton.mp hx]
          rcases h.sim with ⟨s, hs⟩
          exact hs.fresh_or_overtaken rfl hi hrole hterm
      · intro x y hx hy hnode hread
        rcases List.mem_append.mp hx with hx | hx
        · rcases List.mem_append.mp hy with hy | hy
          · exact h.calls.unique x y hx hy hnode hread
          · rw [List.mem_singleton.mp hy] at hnode hread
            exact absurd hread (hnew x hx hnode)
        · rcases List.mem_append.mp hy with hy | hy
          · rw [List.mem_singleton.mp hx] at hnode hread
            exact absurd hread.symm (hnew y hy hnode.symm)
          · rw [List.mem_singleton.mp hx, List.mem_singleton.mp hy]
    refine ⟨hok, fun x hx => List.mem_append_left _ hx, fun j hj => ?_⟩
    by_cases hji : j = i
    · subst hji
      simp only [Cluster.setNode, Function.update_self]
      have hnode : call.node = j := rfl
      have hqueued := (h.nodes j hj).own_call hnode rfl rfl hrole hnew
      exact hqueued.moves hok hj rfl hmoves
    · simp only [Cluster.setNode, Function.update_of_ne hji]
      exact (h.nodes j hj).other_call fun heq => hji heq.symm

theorem Inv.exec (h : g.Inv cfg) (ha : g.Allowed cfg a) (htimely : g.Timely a)
    (hexec : g.exec a = .ok g') : g'.Inv cfg := by
  have hsim := h.sim_exec ha.left hexec
  cases a with
  | tick id =>
      rcases bind_eq_ok.mp hexec with ⟨cl, hcl, hpure⟩
      rcases bind_eq_ok.mp hcl with ⟨n, hn, hset⟩
      cases hpure
      cases hset
      have heffect : Effect {} (g.cluster.nodes id).core _ _ := Node.tick_effect
      exact { h with sim := hsim, nodes := h.quiet ha.left rfl (heffect.returned hn).left }
  | campaign id =>
      rcases bind_eq_ok.mp hexec with ⟨cl, hcl, hpure⟩
      rcases bind_eq_ok.mp hcl with ⟨n, hn, hset⟩
      cases hpure
      cases hset
      have heffect : Effect {} (g.cluster.nodes id).core _ _ :=
        Node.campaign_effect ha.left.right
      exact { h with
        sim := hsim
        nodes := h.quiet ha.left.left rfl (heffect.returned hn).left }
  | propose id data =>
      rcases bind_eq_ok.mp hexec with ⟨cl, hcl, hpure⟩
      rcases bind_eq_ok.mp hcl with ⟨r, hr, hset⟩
      cases hpure
      cases hset
      have heffect : EffectOf
          { message := some { type := .prop, entries := [{ data := data }] } }
          (g.cluster.nodes id).core _ _ :=
        Node.step_effect (fun hc => by cases hc.left) rfl
      exact { h with sim := hsim, nodes := h.quiet ha.left rfl (heffect.returned hr).left }
  | transferLeader id target =>
      rcases bind_eq_ok.mp hexec with ⟨cl, hcl, hpure⟩
      rcases bind_eq_ok.mp hcl with ⟨r, hr, hset⟩
      cases hpure
      cases hset
      have heffect : EffectOf {} (g.cluster.nodes id).core _ _ :=
        Node.transferLeader_effect target
      exact { h with sim := hsim, nodes := h.quiet ha.left rfl (heffect.returned hr).left }
  | readIndex id read =>
      rcases bind_eq_ok.mp hexec with ⟨r, hr, hpure⟩
      cases hpure
      rcases h.readIndex ha.left ha.right hr with ⟨hcalls, hkeep, hnodes⟩
      refine ⟨hsim, hcalls, hnodes, fun x hx => ?_⟩
      rcases h.served x hx with ⟨happlied, call, hcall, hrest⟩
      exact ⟨happlied, call, hkeep call hcall, hrest⟩
  | ready id =>
      rcases bind_eq_ok.mp hexec with ⟨⟨rd, cl⟩, hdrain, hpure⟩
      cases hpure
      rcases h.sim with ⟨s, hs⟩
      rcases hs.drain_reads h.calls ha.left (h.nodes id ha.left) hdrain with
        ⟨hreads, hothers, hstates⟩
      refine ⟨hsim, h.calls, fun j hj => ?_, fun x hx => ?_⟩
      · by_cases hji : j = id
        · rw [hji]
          exact hreads
        · change ReadsOK _ _ j (cl.nodes j).core
          rw [hothers j hji]
          exact h.nodes j hj
      · rcases List.mem_append.mp hx with hx | hx
        · exact h.served x hx
        · rcases List.mem_map.mp hx with ⟨r, hr, rfl⟩
          rw [hstates] at hr
          rcases List.mem_filter.mp hr with ⟨hr, happlied⟩
          exact ⟨of_decide_eq_true happlied, (h.nodes id ha.left).confirmed r hr⟩
  | compactTo id index =>
      rcases bind_eq_ok.mp hexec with ⟨cl, hcl, hpure⟩
      rcases bind_eq_ok.mp hcl with ⟨n, hn, hset⟩
      cases hpure
      cases hset
      rcases bind_eq_ok.mp hn with ⟨log, _, hpure⟩
      cases hpure
      exact { h with
        sim := hsim
        nodes := h.setNode (n := { g.cluster.nodes id with log := log })
          { h.nodes id ha.left.left with } }
  | deliver k =>
      rcases bind_eq_ok.mp hexec with ⟨cl, hcl, hpure⟩
      cases hpure
      cases hk : g.cluster.network[k]? with
      | none =>
          rw [Cluster.exec, hk] at hcl
          cases hcl
          exact { h with sim := hsim }
      | some m =>
          rw [Cluster.exec, hk] at hcl
          rcases bind_eq_ok.mp hcl with ⟨r, hr, hset⟩
          cases hset
          exact { h with
            sim := hsim
            nodes := h.deliver hk (ha.left m hk) htimely hr }

def Initial (cfg : ClusterConfig) (g : ReadRun) : Prop :=
  cfg.Initial g.cluster ∧ g.calls = [] ∧ g.served = []

theorem Initial.inv (h : g.Initial cfg)
    (hstrict : forall id, id ∈ cfg.voters -> (cfg.config id).leaseRead = false) :
    g.Inv cfg := by
  rcases h with ⟨hinit, hcalls, hserved⟩
  have hsim := ClusterSim.initial hinit
  refine ⟨⟨_, hsim⟩, ?_, ?_, ?_⟩
  · rw [hcalls]
    constructor
    · intro call hcall
      cases hcall
    · intro a b ha
      cases ha
  · intro i hi
    have hnode := hsim.nodes hi
    have hcore := Node.core_newNodeConfig (hinit.left i hi)
    rw [hcore] at hnode ⊢
    constructor
    · exact hnode.id_eq
    · exact hnode.voters_nodup
    · exact hnode.voters_eq
    · exact hstrict i hi
    · intro hrole
      cases hrole
    · intro hrole
      cases hrole
    · intro r hr
      cases hr
  · rw [hserved]
    intro x hx
    cases hx

/-- Linearizable reads: in every run whose counted acknowledgements are timely,
a served read has seen everything that was committed when it was requested. -/
theorem linearizable_of_timely (cfg : ClusterConfig)
    (hstrict : forall id, id ∈ cfg.voters -> (cfg.config id).leaseRead = false)
    {start : ReadRun} (hstart : start.Initial cfg)
    (hrun : Reach exec (fun g a => g.Allowed cfg a ∧ g.Timely a) start g) :
    g.Linearizable cfg.voters :=
  (hrun.invariant (I := Inv cfg)
    (fun _ _ _ hinv ha hexec => hinv.exec ha.left ha.right hexec)
    (hstart.inv hstrict)).linearizable

def three : ReadRun where
  cluster := ClusterConfig.three.start

theorem initial_three : three.Initial ClusterConfig.three :=
  ⟨ClusterConfig.three.initial_start, rfl, rfl⟩

def confirmedRead : List Action :=
  ClusterConfig.electOne ++
    [.readIndex 1 7, .ready 1, .deliver 11, .ready 2, .deliver 13, .ready 1]

theorem linearizable_confirmedRead :
    exists g, runWhile exec
        (fun g a => g.Allowed ClusterConfig.three a ∧ g.Timely a)
        confirmedRead three = .ok g ∧
      g.served.map Served.state = [{ id := 7, index := 1 }] ∧
      g.Linearizable ClusterConfig.three.voters := by
  have hrun : okWith (runWhile exec
      (fun g a => g.Allowed ClusterConfig.three a ∧ g.Timely a)
      confirmedRead three)
      (fun g => g.served.map Served.state = [{ id := 7, index := 1 }]) := by
    decide +kernel
  rcases exists_of_okWith hrun with ⟨g, hg, hserved⟩
  exact ⟨g, hg, of_decide_eq_true hserved,
    linearizable_of_timely ClusterConfig.three (fun _ _ => rfl) initial_three
      (Reach.of_runWhile hg)⟩

/-- Node 3 acknowledges the first entry of node 1, then wins term 2 with the
vote of node 2 and commits there.  Only then node 1, which has heard nothing of
it, takes a read; the old acknowledgement arrives and completes the round. -/
def delayedAck : List Action :=
  ClusterConfig.electOne ++
    [.deliver 7, .ready 3, .campaign 3, .ready 3, .deliver 13, .ready 2,
      .deliver 14, .ready 3, .deliver 16, .ready 2, .deliver 17, .ready 3,
      .deliver 19, .ready 2, .deliver 20, .ready 3,
      .readIndex 1 7, .deliver 11, .ready 1]

/-- The read is served at index 1; node 3 had committed index 2 before it was
requested. -/
theorem not_linearizable_delayedAck :
    exists g, Reach exec (Allowed ClusterConfig.three) three g ∧
      g.served.map Served.state = [{ id := 7, index := 1 }] ∧
      g.calls.map (fun call => (call.before.nodes 3).log.committed) = [2] ∧
      ¬ g.Linearizable ClusterConfig.three.voters := by
  have hrun : okWith (runWhile exec (Allowed ClusterConfig.three) delayedAck three)
      (fun g => g.served.map Served.state = [{ id := 7, index := 1 }] ∧
        g.calls.map (fun call => (call.before.nodes 3).log.committed) = [2] ∧
        ¬ g.Linearizable ClusterConfig.three.voters) := by
    decide +kernel
  rcases exists_of_okWith hrun with ⟨g, hg, hcheck⟩
  exact ⟨g, Reach.of_runWhile hg, of_decide_eq_true hcheck⟩

end ReadRun

end Raft
end Basalt
