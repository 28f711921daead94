import Basalt.Lib.Run
import Basalt.Raft.Node

/-!
# A cluster of nodes

Nodes with one fixed voter set and a network that keeps every message ever
sent.  A delivery picks any of them, so messages are lost, duplicated, delayed
and reordered without bound.

`handedOut` collects what each node gave to its state machine and `compacted`
what it dropped from its log; no operation reads them.
-/

namespace Basalt
namespace Raft

open Lib

structure Cluster where
  nodes : Nat -> Node
  network : List Message := []
  handedOut : Nat -> List Entry := fun _ => []
  compacted : Nat -> List Entry := fun _ => []

inductive Action where
  | tick (id : Nat)
  | campaign (id : Nat)
  | propose (id : Nat) (data : Bytes)
  | transferLeader (id target : Nat)
  | readIndex (id read : Nat)
  | ready (id : Nat)
  | compactTo (id index : Nat)
  | deliver (k : Nat)
deriving DecidableEq, Repr

namespace Cluster

def setNode (cl : Cluster) (id : Nat) (n : Node) : Cluster :=
  { cl with nodes := Function.update cl.nodes id n }

def record (cl : Cluster) (id : Nat) (rd : Ready) (n : Node) : Cluster :=
  { cl.setNode id n with
    network := cl.network ++ rd.messages
    handedOut := Function.update cl.handedOut id
      (cl.handedOut id ++ rd.committedEntries) }

/-- One round of the caller's loop: drain the effects, send the messages, apply
the committed entries, acknowledge. -/
def drain (cl : Cluster) (id : Nat) : Except Panic (Ready × Cluster) := do
  let (rd, n) <- (cl.nodes id).ready
  let n <- n.advance rd
  pure (rd, cl.record id rd n)

def shrink (cl : Cluster) (id : Nat) (n : Node) : Cluster :=
  { cl.setNode id n with
    compacted := Function.update cl.compacted id
      (cl.compacted id ++ (cl.nodes id).log.entries.take
        (n.log.snapIndex - (cl.nodes id).log.snapIndex)) }

def exec (cl : Cluster) : Action -> Except Panic Cluster
  | .tick id => do
      let n <- (cl.nodes id).tick
      pure (cl.setNode id n)
  | .campaign id => do
      let n <- (cl.nodes id).campaign
      pure (cl.setNode id n)
  | .propose id data => do
      let (_, n) <- (cl.nodes id).propose data
      pure (cl.setNode id n)
  | .transferLeader id target => do
      let (_, n) <- (cl.nodes id).transferLeader target
      pure (cl.setNode id n)
  | .readIndex id read => do
      let (_, n) <- (cl.nodes id).readIndex read
      pure (cl.setNode id n)
  | .ready id => do
      let (_, cl) <- cl.drain id
      pure cl
  | .compactTo id index => do
      let n <- (cl.nodes id).compactTo index
      pure (cl.shrink id n)
  | .deliver k =>
      match cl.network[k]? with
      | none => pure cl
      | some m => do
          let (_, n) <- (cl.nodes m.toId).step m
          pure (cl.setNode m.toId n)

/-- The callers act on the given nodes only.  A campaign is started on a node that
does not lead, and a log is compacted up to what is applied. -/
def Allowed (ids : Finset Nat) (cl : Cluster) : Action -> Prop
  | .tick id => id ∈ ids
  | .campaign id => id ∈ ids ∧ (cl.nodes id).role ≠ .leader
  | .propose id _ => id ∈ ids
  | .transferLeader id _ => id ∈ ids
  | .readIndex id _ => id ∈ ids
  | .ready id => id ∈ ids
  | .compactTo id index => id ∈ ids ∧ index ≤ (cl.nodes id).log.applied
  | .deliver k => forall m, m ∈ cl.network[k]? -> m.toId ∈ ids

instance (ids : Finset Nat) (cl : Cluster) (a : Action) : Decidable (cl.Allowed ids a) :=
  match a with
  | .tick id => inferInstanceAs (Decidable (id ∈ ids))
  | .campaign id => inferInstanceAs (Decidable (id ∈ ids ∧ (cl.nodes id).role ≠ .leader))
  | .propose id _ => inferInstanceAs (Decidable (id ∈ ids))
  | .transferLeader id _ => inferInstanceAs (Decidable (id ∈ ids))
  | .readIndex id _ => inferInstanceAs (Decidable (id ∈ ids))
  | .ready id => inferInstanceAs (Decidable (id ∈ ids))
  | .compactTo id index =>
      inferInstanceAs (Decidable (id ∈ ids ∧ index ≤ (cl.nodes id).log.applied))
  | .deliver k =>
      inferInstanceAs (Decidable (forall m, m ∈ cl.network[k]? -> m.toId ∈ ids))

end Cluster

/-- The configuration of a cluster: every node lists the same voters, none of
which is the reserved identifier zero. -/
structure ClusterConfig where
  voters : Finset Nat
  config : Nat -> Config
  zero_notMem : 0 ∉ voters
  config_id : forall id, id ∈ voters -> (config id).id = id
  config_peers : forall id, id ∈ voters -> (config id).peers.toFinset = voters

namespace ClusterConfig

def Allowed (cfg : ClusterConfig) (cl : Cluster) (a : Action) : Prop :=
  cl.Allowed cfg.voters a

instance (cfg : ClusterConfig) (cl : Cluster) (a : Action) : Decidable (cfg.Allowed cl a) :=
  inferInstanceAs (Decidable (cl.Allowed cfg.voters a))

def Initial (cfg : ClusterConfig) (cl : Cluster) : Prop :=
  (forall id, id ∈ cfg.voters ->
    Node.newNodeConfig (cfg.config id) = .ok (cl.nodes id)) ∧
  cl.network = [] ∧ (forall id, cl.handedOut id = []) ∧
  forall id, cl.compacted id = []

def start (cfg : ClusterConfig) : Cluster where
  nodes := fun id =>
    match Node.newNodeConfig (cfg.config id) with
    | .ok n => n
    | .error _ => { id := id }

theorem initial_start (cfg : ClusterConfig) : cfg.Initial cfg.start := by
  refine ⟨?_, rfl, fun _ => rfl, fun _ => rfl⟩
  intro id hid
  have hmem : (cfg.config id).id ∈ (cfg.config id).peers := by
    rw [cfg.config_id id hid, ← List.mem_toFinset, cfg.config_peers id hid]
    exact hid
  have hok : exists n, Node.newNodeConfig (cfg.config id) = .ok n := by
    rw [Node.newNodeConfig, Node.newNode, if_neg (not_not.mpr hmem)]
    exact ⟨_, rfl⟩
  rcases hok with ⟨n, hn⟩
  simp only [start, hn]

def Reachable (cfg : ClusterConfig) (cl : Cluster) : Prop :=
  exists start, cfg.Initial start ∧ Reach Cluster.exec cfg.Allowed start cl

def run (cfg : ClusterConfig) (as : List Action) : Except Panic Cluster :=
  runWhile Cluster.exec cfg.Allowed as cfg.start

theorem reachable_run {cfg : ClusterConfig} {cl : Cluster} {as : List Action}
    (h : cfg.run as = .ok cl) : cfg.Reachable cl :=
  ⟨cfg.start, cfg.initial_start, Reach.of_runWhile h⟩

def three : ClusterConfig where
  voters := {1, 2, 3}
  config := fun id => { id := id, peers := [1, 2, 3] }
  zero_notMem := by decide
  config_id := fun _ _ => rfl
  config_peers := fun _ _ => rfl

/-- Node 1 wins the first election with the vote of node 2 and commits its
empty entry there. -/
def electOne : List Action :=
  [.campaign 1, .ready 1, .deliver 0, .ready 2, .deliver 2, .ready 1,
    .deliver 3, .ready 2, .deliver 5, .ready 1, .deliver 6, .ready 2,
    .deliver 8, .ready 1]

end ClusterConfig

end Raft
end Basalt
