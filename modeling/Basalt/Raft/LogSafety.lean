import Basalt.Raft.StateMachineSafety

/-!
# Logs over time

Log matching and leader completeness, each between a state of a run and any state
that the run reaches from it.  A log is taken with its compacted part, so that no
compaction hides a conflict.
-/

namespace Basalt
namespace Raft

open Lib Lib.ReplicatedLog

namespace Cluster

/-- The entries of a node from index one on, the compacted ones included. -/
def fullLog (cl : Cluster) (i : Nat) : List Entry :=
  cl.compacted i ++ (cl.nodes i).log.entries

def committedLog (cl : Cluster) (i : Nat) : List Entry :=
  (cl.fullLog i).take (cl.nodes i).log.committed

end Cluster

variable {cfg : ClusterConfig} {s : AbstractState} {cl cl' : Cluster} {i j : Nat}

theorem ClusterSim.fullLog_eq (h : ClusterSim cfg.voters s cl) (hi : i ∈ cfg.voters) :
    cl.fullLog i = s.log i := by
  have hview : View (cl.nodes i).log (s.log i) := (h.nodes hi).view
  rw [Cluster.fullLog, h.compacted hi, hview.entries_eq, List.take_append_drop]

theorem ClusterSim.committedLog_eq (h : ClusterSim cfg.voters s cl)
    (hi : i ∈ cfg.voters) : cl.committedLog i = (s.log i).take (s.commit i) := by
  have hcommit : s.commit i = (cl.nodes i).log.committed := (h.nodes hi).commit_eq
  rw [Cluster.committedLog, h.fullLog_eq hi, hcommit]

theorem ClusterSim.settled (h : ClusterSim cfg.voters s cl) (hi : i ∈ cfg.voters) :
    Settled s (cl.nodes i).term (cl.committedLog i) := by
  rw [h.committedLog_eq hi]
  have hterm : s.term i = (cl.nodes i).term := (h.nodes hi).term_eq
  exact hterm ▸ h.inv.settled_commit i

/-- The rest of a run in the abstract state: facts are only added. -/
theorem ClusterSim.reach (h : ClusterSim cfg.voters s cl)
    (hlater : Reach Cluster.exec cfg.Allowed cl cl') :
    exists s', ClusterSim cfg.voters s' cl' ∧ Grows s s' := by
  refine hlater.invariant
    (I := fun cl' => exists s', ClusterSim cfg.voters s' cl' ∧ Grows s s') ?_
    ⟨s, h, Grows.refl s⟩
  rintro cl a cl' ⟨s', hs', hgrows⟩ hallowed hexec
  rcases hs'.exec hallowed with ⟨cl'', s'', hexec', hs'', hgrows'⟩
  rw [hexec] at hexec'
  cases hexec'
  exact ⟨s'', hs'', hgrows.trans hgrows'⟩

/-!
## A change of leaders
-/

/-- After node 1 has committed its first entry, node 2 wins the next election
with the vote of node 3, whose log is empty. -/
def ClusterConfig.takeOver : List Action :=
  [.campaign 2, .ready 2, .deliver 12, .ready 3, .deliver 13, .ready 2, .deliver 15, .ready 3,
    .deliver 16]

structure TakenOver (cl cl' : Cluster) : Prop where
  reachable : ClusterConfig.three.Reachable cl
  later : Reach Cluster.exec ClusterConfig.three.Allowed cl cl'
  committed : (cl.committedLog 1).length = 1
  role : (cl'.nodes 2).role = .leader
  term : (cl.nodes 1).term < (cl'.nodes 2).term
  shared : exists e, e ∈ (cl.fullLog 1)[0]? ∧ (cl'.fullLog 2)[0]? = some e

theorem exists_takenOver : exists cl cl', TakenOver cl cl' := by
  have hrun : okWith (ClusterConfig.three.run ClusterConfig.electOne) (fun cl =>
      okWith (runWhile Cluster.exec ClusterConfig.three.Allowed ClusterConfig.takeOver cl)
        (fun cl' => decide ((cl.committedLog 1).length = 1 ∧
          (cl'.nodes 2).role = .leader ∧ (cl.nodes 1).term < (cl'.nodes 2).term ∧
          exists e, e ∈ (cl.fullLog 1)[0]? ∧ (cl'.fullLog 2)[0]? = some e))) := by
    decide +kernel
  rcases exists_of_okWith hrun with ⟨cl, hcl, hrest⟩
  rcases exists_of_okWith hrest with ⟨cl', hcl', hlast⟩
  rcases of_decide_eq_true hlast with ⟨hcommitted, hrole, hterm, hshared⟩
  exact ⟨cl, cl', ClusterConfig.reachable_run hcl, Reach.of_runWhile hcl', hcommitted, hrole,
    hterm, hshared⟩

/-!
## Safety
-/

section

variable (h : cfg.Reachable cl) (hlater : Reach Cluster.exec cfg.Allowed cl cl')
  (hi : i ∈ cfg.voters) (hj : j ∈ cfg.voters)

include h hlater hi hj

/-- Log matching: an entry of one node and an entry of the same index and term
of a node at the same or a later time have the same entries before them. -/
theorem logs_match_over_time {k : Nat} {e d : Entry}
    (he : (cl.fullLog i)[k]? = some e) (hd : (cl'.fullLog j)[k]? = some d)
    (hterm : e.term = d.term) :
    (cl.fullLog i).take (k + 1) = (cl'.fullLog j).take (k + 1) := by
  rcases h.sim with ⟨s, hs⟩
  rcases hs.reach hlater with ⟨s', hs', hgrows⟩
  rw [hs.fullLog_eq hi] at he ⊢
  rw [hs'.fullLog_eq hj] at hd ⊢
  have hfit := (hs.inv.log.log_fits i).grows hgrows
  exact hfit.matching (hs'.inv.log.log_fits j) he hd hterm

omit h hlater hi hj in
theorem logs_match_takeOver :
    exists cl cl', TakenOver cl cl' ∧
      (cl.fullLog 1).take 1 = (cl'.fullLog 2).take 1 := by
  rcases exists_takenOver with ⟨cl, cl', h⟩
  rcases h.shared with ⟨e, he, hd⟩
  exact ⟨cl, cl', h, logs_match_over_time (k := 0) h.reachable h.later (by decide) (by decide)
    he hd rfl⟩

/-- Leader completeness: what a node knows to be committed is in the log of
every leader of the same or a later time whose term is not an earlier one. -/
theorem leader_holds_committed (hrole : (cl'.nodes j).role = .leader)
    (hterm : (cl.nodes i).term ≤ (cl'.nodes j).term) :
    cl.committedLog i <+: cl'.fullLog j := by
  rcases h.sim with ⟨s, hs⟩
  rcases hs.reach hlater with ⟨s', hs', hgrows⟩
  have hnode := hs'.nodes hj
  rcases hnode.lead_iff.mp hrole with ⟨Q, hlead⟩
  have hlog : s'.log j = s'.termLog (cl'.nodes j).term := by
    rw [← hnode.term_eq] at hlead
    exact (hs'.inv.log.lead_log hlead).trans (congrArg s'.termLog hnode.term_eq)
  rw [hs'.fullLog_eq hj, hlog]
  exact hs'.inv.settled_prefix ((hs.settled hi).grows hs.inv hgrows) hlead hterm

end

theorem leader_holds_takeOver :
    exists cl cl', TakenOver cl cl' ∧ cl.committedLog 1 <+: cl'.fullLog 2 := by
  rcases exists_takenOver with ⟨cl, cl', h⟩
  exact ⟨cl, cl', h, leader_holds_committed h.reachable h.later (by decide) (by decide)
    h.role (Nat.le_of_lt h.term)⟩

end Raft
end Basalt
