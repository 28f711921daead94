import Basalt.Raft.Cluster
import Basalt.Raft.LogView

/-!
# Installing a snapshot in memory

`restoreSnapshot` moves a node to a boundary that the cluster has agreed on.
It compares the boundary with what is applied, not with what is committed, and
drops the whole log.
-/

namespace Basalt
namespace Raft

open Lib

/-- A snapshot at `index` leaves what was agreed: the commit index does not
fall, the cursors stay in order, entries above a boundary that the log has are
kept, and a refusal changes nothing. -/
structure KeepsAgreed (n : Node) (index term : Nat) (accepted : Bool) (n' : Node) : Prop where
  committed : n.log.committed ≤ n'.log.committed
  ordered : n'.log.snapIndex ≤ n'.log.applied ∧ n'.log.applied ≤ n'.log.committed ∧
    n'.log.committed ≤ n'.log.lastIndex
  kept : n.log.term index = some term -> forall i e, index < i ->
    n.log.entryAt i = some e -> n'.log.entryAt i = some e
  refused : accepted = false -> n' = n

/-- The boundary is applied, or it is not below the commit index and the log has
nothing above it that belongs to it. -/
def TakesNothingBack (n : Node) (index term : Nat) : Prop :=
  index ≤ n.log.applied ∨
    (n.log.committed ≤ index ∧ (n.log.lastIndex ≤ index ∨ n.log.term index ≠ some term))

instance (n : Node) (index term : Nat) : Decidable (TakesNothingBack n index term) :=
  inferInstanceAs (Decidable (_ ∨ _))

namespace Node

variable {n : Node} {index term : Nat}

theorem restoreSnapshot_refused (h : index ≤ n.log.applied) :
    n.restoreSnapshot index term = (false, n) := by
  unfold restoreSnapshot
  rw [if_pos h, ite_self]

theorem restoreSnapshot_accepted (term : Nat) (h : n.log.applied < index) :
    (n.restoreSnapshot index term).1 = true ∧
      (n.restoreSnapshot index term).2.log = snapshotLog index term := by
  have hsnap := n.log.snapIndex_le
  unfold restoreSnapshot
  rw [if_neg (by lia), if_neg (by lia)]
  constructor
  · rfl
  · dsimp only
    split
    · rfl
    · rfl

/-- Exactly these boundaries take nothing back. -/
theorem restoreSnapshot_keepsAgreed_iff (n : Node) (index term : Nat) :
    KeepsAgreed n index term (n.restoreSnapshot index term).1
        (n.restoreSnapshot index term).2 <->
      TakesNothingBack n index term := by
  by_cases happlied : index ≤ n.log.applied
  · rw [restoreSnapshot_refused happlied]
    constructor
    · intro _
      exact Or.inl happlied
    · intro _
      exact {
        committed := Nat.le_refl _
        ordered := ⟨n.log.snapIndex_le, n.log.applied_le, n.log.committed_le_lastIndex⟩
        kept := fun _ i e _ he => he
        refused := fun _ => rfl }
  · have hlt : n.log.applied < index := Nat.lt_of_not_le happlied
    rcases restoreSnapshot_accepted term hlt with ⟨hok, hlog⟩
    constructor
    · intro h
      have hcommitted := h.committed
      rw [hlog] at hcommitted
      refine Or.inr ⟨hcommitted, ?_⟩
      -- An entry above the boundary would have to be in an empty log.
      rw [or_iff_not_imp_left]
      intro hlast hterm
      have hsnap := n.log.snapIndex_le
      rcases RaftLog.entryAt_lastIndex (l := n.log) (by lia) with ⟨e, he⟩
      have hkept := h.kept hterm n.log.lastIndex e (by lia) he
      rw [hlog, RaftLog.entryAt_beyond _ (show index < n.log.lastIndex by lia)] at hkept
      cases hkept
    · intro h
      rcases h with h | ⟨hcommitted, hnothing⟩
      · exact absurd h happlied
      · constructor
        · rw [hlog]
          exact hcommitted
        · rw [hlog]
          exact ⟨Nat.le_refl _, Nat.le_refl _, Nat.le_refl _⟩
        · intro hterm i e hi he
          rcases hnothing with hlast | hne
          · rw [RaftLog.entryAt_beyond _ (by lia)] at he
            cases he
          · exact absurd hterm hne
        · intro hfalse
          rw [hok] at hfalse
          cases hfalse

end Node

def Cluster.CommittedAt (voters : Finset Nat) (cl : Cluster) (index term : Nat) : Prop :=
  exists i, i ∈ voters ∧ index ≤ (cl.nodes i).log.committed ∧
    (cl.nodes i).log.term index = some term

/-- Node 1 commits a second entry, and node 3 learns of both at once. -/
def learnBoth : List Action :=
  ClusterConfig.electOne ++
    [.propose 1 [7], .ready 1, .deliver 11, .ready 2, .deliver 13, .ready 1, .deliver 15]

/-- The snapshot of the first entry takes node 3 back from two committed entries
to one, and drops the second. -/
theorem not_keepsAgreed_learnBoth :
    exists cl, ClusterConfig.three.Reachable cl ∧
      cl.CommittedAt ClusterConfig.three.voters 1 1 ∧
      (cl.nodes 3).log.committed = 2 ∧
      ((cl.nodes 3).restoreSnapshot 1 1).1 = true ∧
      ((cl.nodes 3).restoreSnapshot 1 1).2.log.committed = 1 ∧
      ¬ KeepsAgreed (cl.nodes 3) 1 1 ((cl.nodes 3).restoreSnapshot 1 1).1
        ((cl.nodes 3).restoreSnapshot 1 1).2 := by
  have hrun : okWith (ClusterConfig.three.run learnBoth)
      (fun cl => 1 ≤ (cl.nodes 1).log.committed ∧ (cl.nodes 1).log.term 1 = some 1 ∧
        (cl.nodes 3).log.committed = 2 ∧ (cl.nodes 3).log.applied = 0) := by
    decide +kernel
  rcases exists_of_okWith hrun with ⟨cl, hcl, hcheck⟩
  rcases of_decide_eq_true hcheck with ⟨hone, hterm, hcommitted, happlied⟩
  have hlt : (cl.nodes 3).log.applied < 1 := by lia
  rcases Node.restoreSnapshot_accepted 1 hlt with ⟨hok, hlog⟩
  refine ⟨cl, ClusterConfig.reachable_run hcl, ⟨1, by decide, hone, hterm⟩, hcommitted, hok, ?_,
    ?_⟩
  · rw [hlog]
    rfl
  · intro h
    have hle := h.committed
    rw [hlog, hcommitted] at hle
    exact absurd hle (by decide)

end Raft
end Basalt
