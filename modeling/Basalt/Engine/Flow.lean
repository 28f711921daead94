import Basalt.Engine.Steps

/-!
# Sealed memtables and their flushes

Where a memtable is sealed only once the one before was flushed, one flush at a time
has work to do.  It carries the memtable, the sequence number and the boundary of
the log that were sealed together.
-/

namespace Basalt
namespace Engine

open Lib Base Manifest Wal Compaction

/-- The flush has not installed its table yet. -/
def Flusher.Active : Flusher -> Prop
  | .starting => True
  | .running _ stage => stage ≠ .pruning

instance : DecidablePred Flusher.Active := fun f =>
  match f with
  | .starting => inferInstanceAs (Decidable True)
  | .running _ stage => inferInstanceAs (Decidable (stage ≠ .pruning))

namespace Core

/-- No sealed memtable waits for its flush. -/
abbrev Vacant (imm : Option MemTable) : Prop :=
  imm = none

def pending (c : Core) : List Sealed :=
  c.imm.toList.map fun m => { imm := m, sealSeq := c.immSeq, bound := c.immBound }

structure Flow (c : Core) : Prop where
  size : 0 < c.opts.memTableSize
  single : c.flushers.countP (fun f => f.Active) ≤ 1
  drained : c.imm = none -> forall f, f ∈ c.flushers -> ¬ f.Active
  captured : forall cap stage, .running cap stage ∈ c.flushers -> stage ≠ .pruning ->
    c.imm = some cap.imm ∧ cap.sealSeq = c.immSeq ∧ cap.bound = c.immBound
  served : c.imm.isSome -> (exists f, f ∈ c.flushers ∧ f.Active) ∨ c.bgErr = true
  sealed : c.sealed = c.flushed.map Captured.sealed ++ c.pending

variable {sizes : Sizes} {c c' : Core}

namespace Flow

theorem single_set (h : c.Flow) {j : Nat} {f f' : Flusher} (hj : c.flushers[j]? = some f)
    (hf : f.Active) : (c.flushers.set j f').countP (fun f => f.Active) ≤ 1 := by
  rcases List.getElem?_eq_some_iff.mp hj with ⟨hlt, hget⟩
  have hsingle := h.single
  rw [List.countP_set hlt, hget, if_pos (decide_eq_true hf)]
  split
  · lia
  · lia

theorem none_set (h : c.Flow) {j : Nat} {f f' : Flusher} (hj : c.flushers[j]? = some f)
    (hf : f.Active) (hf' : ¬ f'.Active) {g : Flusher} (hg : g ∈ c.flushers.set j f') :
    ¬ g.Active := by
  rcases List.getElem?_eq_some_iff.mp hj with ⟨hlt, hget⟩
  have hzero : (c.flushers.set j f').countP (fun f => f.Active) = 0 := by
    have hsingle := h.single
    rw [List.countP_set hlt, hget, if_pos (decide_eq_true hf),
      if_neg (by rw [decide_eq_true_eq]; exact hf')]
    lia
  have hall := List.countP_eq_zero.mp hzero g hg
  rw [decide_eq_true_eq] at hall
  exact hall

theorem captured_set (h : c.Flow) {j : Nat} {cap : Captured} {stage stage' : FlushStage}
    (hj : c.flushers[j]? = some (.running cap stage)) (hstage : stage ≠ .pruning)
    (cap' : Captured) (stage'' : FlushStage)
    (hmem : .running cap' stage'' ∈ c.flushers.set j (.running cap stage'))
    (hstage'' : stage'' ≠ .pruning) :
    c.imm = some cap'.imm ∧ cap'.sealSeq = c.immSeq ∧ cap'.bound = c.immBound := by
  rcases List.mem_or_eq_of_mem_set hmem with hmem | heq
  · exact h.captured cap' stage'' hmem hstage''
  · cases heq
    exact h.captured cap stage (List.mem_of_getElem? hj) hstage

theorem restage (h : c.Flow) {j : Nat} {cap : Captured} {stage stage' : FlushStage}
    (hj : c.flushers[j]? = some (.running cap stage)) (hstage : stage ≠ .pruning)
    (hstage' : stage' ≠ .pruning) :
    Flow { c with flushers := c.flushers.set j (.running cap stage') } :=
  { h with
    single := h.single_set hj hstage
    drained := fun hnone => absurd hstage (h.drained hnone _ (List.mem_of_getElem? hj))
    captured := h.captured_set hj hstage
    served := fun _ => Or.inl ⟨_, List.mem_set (List.getElem?_eq_some_iff.mp hj).1 _, hstage'⟩ }

theorem sealed' (h : c.Flow) (hnone : c.imm = none) : (c.sealAndFlush true).1.Flow := by
  have hpending : c.pending = [] := by
    unfold pending
    rw [hnone]
    rfl
  have hzero : c.flushers.countP (fun f => f.Active) = 0 := by
    rw [List.countP_eq_zero]
    intro f hf
    rw [decide_eq_true_eq]
    exact h.drained hnone f hf
  rw [sealAndFlush_true]
  constructor
  · exact h.size
  · show (c.flushers ++ [Flusher.starting]).countP (fun f => f.Active) ≤ 1
    rw [List.countP_append, hzero]
    decide
  · exact fun hbad => by cases hbad
  · intro cap stage hmem hstage
    rcases List.mem_append.mp hmem with hmem | hmem
    · exact absurd hstage (h.drained hnone _ hmem)
    · cases List.mem_singleton.mp hmem
  · exact fun _ => Or.inl ⟨.starting, List.mem_append_right _ List.mem_cons_self, trivial⟩
  · show c.sealed ++ _ = _
    rw [h.sealed, hpending, List.append_nil]
    rfl

theorem change (h : c.Flow) (hchange : Change sizes Vacant c c') : c'.Flow := by
  cases hchange with
  | sleep w _ _ _ _ _ | rise j | schedule k compactPtr _ _ _ | rotate id _ => exact { h with }
  | sealed hnone _ _ => exact h.sealed' hnone
  | sealFailed hnone =>
      have hpending : c.pending = pending { c with bgErr := true, immBound := 0 } := by
        unfold pending
        rw [hnone]
        rfl
      exact { h with
        captured := fun cap stage hmem hstage => absurd hstage (h.drained hnone _ hmem)
        served := fun _ => Or.inr rfl
        sealed := hpending ▸ h.sealed }
  | poison | stray _ _ _ _ => exact { h with served := fun _ => Or.inr rfl }
  | commit b height mem _ _ _ _ => exact { h with }
  | flushStart j imm hj himm =>
      have hlt := (List.getElem?_eq_some_iff.mp hj).1
      exact { h with
        single := h.single_set hj trivial
        drained := fun hnone => by
          rw [himm] at hnone
          cases hnone
        captured := by
          intro cap stage hmem hstage
          rcases List.mem_or_eq_of_mem_set hmem with hmem | heq
          · exact h.captured cap stage hmem hstage
          · cases heq
            exact ⟨himm, rfl, rfl⟩
        served := fun _ => Or.inl ⟨_, List.mem_set hlt _, nofun⟩ }
  | flushWrite j cap hj =>
      have hstaged : Flow { c with flushers := c.flushers.set j (.running cap .written) } :=
        h.restage hj nofun nofun
      exact { hstaged with }
  | flushFail j cap stage vsErr hj hstage =>
      have hstaged : Flow { c with flushers := c.flushers.set j (.running cap .failing) } :=
        h.restage hj hstage nofun
      exact { hstaged with }
  | flushApply j cap v next vsErr hj _ _ =>
      rcases h.captured cap .written (List.mem_of_getElem? hj) nofun with ⟨himm, hseq, hbound⟩
      have hpruning : ¬ Flusher.Active (.running cap .pruning) := fun hne => hne rfl
      have hactive : forall g, g ∈ c.flushers.set j (.running cap .pruning) -> ¬ g.Active :=
        fun g => h.none_set hj nofun hpruning
      exact {
        size := h.size
        single := by
          have hzero :
              (c.flushers.set j (.running cap .pruning)).countP (fun f => f.Active) = 0 := by
            rw [List.countP_eq_zero]
            intro g hg
            rw [decide_eq_true_eq]
            exact hactive g hg
          exact (Nat.le_of_eq hzero).trans (Nat.zero_le 1)
        drained := fun _ => hactive
        captured := fun cap' stage hmem hstage => absurd hstage (hactive _ hmem)
        served := fun hsome => by cases hsome
        sealed := by
          show c.sealed = (c.flushed ++ [cap]).map Captured.sealed ++ []
          rw [h.sealed, List.map_append, List.append_nil]
          unfold pending
          rw [himm, ← hseq, ← hbound]
          rfl }
  | flushFailed j cap hj =>
      exact { h with
        single := (List.eraseIdx_sublist _ _).countP_le.trans h.single
        drained := fun hnone f hf => h.drained hnone f (List.mem_of_mem_eraseIdx hf)
        captured := fun cap stage hmem => h.captured cap stage (List.mem_of_mem_eraseIdx hmem)
        served := fun _ => Or.inr rfl }
  | flushDone j cap pruned hj =>
      exact { h with
        single := (List.eraseIdx_sublist _ _).countP_le.trans h.single
        drained := fun hnone f hf => h.drained hnone f (List.mem_of_mem_eraseIdx hf)
        captured := fun cap stage hmem => h.captured cap stage (List.mem_of_mem_eraseIdx hmem)
        served := by
          intro hsome
          rcases h.served hsome with ⟨f, hf, hactive⟩ | hbgErr
          · left
            refine ⟨f, ?_, hactive⟩
            rcases List.mem_iff_getElem?.mp hf with ⟨i, hi⟩
            show f ∈ c.flushers.eraseIdx j
            rw [List.mem_eraseIdx_iff_getElem?]
            refine ⟨i, ?_, hi⟩
            rintro rfl
            rw [hj] at hi
            cases hi
            exact hactive rfl
          · right
            show (c.bgErr || !pruned) = true
            rw [hbgErr, Bool.true_or] }
  | compactCreate k nums _ _ | compactMerge k nums outs _ _ _ _ | compactFail k vsErr _
  | compactApply k outs v next vsErr _ _ _ _ => exact { h with }
  | compactFinish k bgErr _ hbgErr =>
      exact { h with served := fun hsome => (h.served hsome).imp id hbgErr }
  | checkpointCall dst _ _ | checkpointWait j k _ | checkpointFailed j k _ => exact { h with }
  | checkpointSeal j k _ _ hnone _ => exact { h.sealed' hnone with }
  | capture j k fault made _ _ _ _ _ _ _ | closing _ _ | closed _ _ _ _ => exact { h with }

theorem start (dsts : Nat -> Option Dst) : Flow { dsts := dsts } where
  size := show 0 < (Options.defaults {}).memTableSize by decide
  single := Nat.zero_le _
  drained := fun _ _ hf => by cases hf
  captured := fun _ _ hf => by cases hf
  served := fun h => by cases h
  sealed := rfl

theorem reopened (c : Core) (o : Options) (disableWAL : Bool)
    (segments : List (Nat × List Batch)) (replayed : MemTable × Nat) :
    (c.reopened o disableWAL segments replayed).Flow where
  size := positiveOr_pos (by decide)
  single := Nat.zero_le _
  drained := fun _ _ hf => by cases hf
  captured := fun _ _ hf => by cases hf
  served := fun h => by cases h
  sealed := rfl

end Flow

end Core

end Engine
end Basalt
