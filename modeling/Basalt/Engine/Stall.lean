import Basalt.Engine.Cascade
import Basalt.Engine.Steps

/-!
# Writers that wait

A writer that sleeps waits for the flush of the sealed memtable or, while level 0 is
full, for a compaction.  Where a full level 0 is over its trigger, what it waits
for is running.
-/

namespace Basalt
namespace Engine

open Lib Base Manifest Wal Compaction

/-- The flush writes this memtable, if it is still `imm` when the flush starts. -/
def Flusher.Serves (m : MemTable) : Flusher -> Prop
  | .starting => True
  | .running cap stage => cap.imm = m ∧ stage ≠ .pruning

instance (m : MemTable) : DecidablePred (Flusher.Serves m) := fun f =>
  match f with
  | .starting => inferInstanceAs (Decidable True)
  | .running cap stage => inferInstanceAs (Decidable (cap.imm = m ∧ stage ≠ .pruning))

def Waiting.Asleep (w : Waiting) (wait : Wait) : Prop :=
  w.wait = wait ∧ w.awake = false

instance (w : Waiting) (wait : Wait) : Decidable (w.Asleep wait) :=
  inferInstanceAs (Decidable (_ ∧ _))

namespace Core

/-- Writers stall no earlier than level 0 is compacted. -/
def Ordered (o : Options) : Prop :=
  o.l0CompactThreshold ≤ o.l0StopThreshold

instance (o : Options) : Decidable (Ordered o) :=
  inferInstanceAs (Decidable (_ ≤ _))

/-- What the writers that sleep wait for. -/
structure Attended (c : Core) : Prop where
  positive : 0 < c.opts.l0CompactThreshold
  ordered : Ordered c.opts
  l0 : forall w, w ∈ c.writers -> w.Asleep .l0 -> c.compacting.isSome
  imm : forall w, w ∈ c.writers -> w.Asleep .imm -> c.imm.isSome
  flush : forall m, c.imm = some m -> (exists f, f ∈ c.flushers ∧ f.Serves m) ∨
    (c.bgErr = true ∧ forall w, w ∈ c.writers -> ¬ w.Asleep .imm)

variable {sizes : Sizes} {P : Option MemTable -> Prop} {c c' : Core}

theorem not_asleep_broadcast {w : Waiting} {wait : Wait} (hw : w ∈ c.broadcast.writers) :
    ¬ w.Asleep wait := by
  rcases List.mem_map.mp hw with ⟨_, _, rfl⟩
  exact fun h => by cases h.right

theorem Stalled.compacting (h : c.Stalled) (hpos : 0 < c.opts.l0CompactThreshold)
    (hordered : Ordered c.opts) : c.compacting.isSome := by
  rcases h.scheduled with hsome | hnone
  · exact hsome
  · have hscore : ¬ .finite 1 ≤ c.opts.score c.version ⟨0, by decide⟩ :=
      pickLevel_eq_none (pickLevel_of_pickCompaction hnone) (by decide)
    have hlt := length_lt_of_score hpos rfl hscore
    have hfull := h.full
    unfold Ordered at hordered
    unfold Core.l0 at hfull
    lia

theorem attended_broadcast (hpos : 0 < c.opts.l0CompactThreshold) (hordered : Ordered c.opts)
    (hflush : forall m, c.imm = some m ->
      (exists f, f ∈ c.flushers ∧ f.Serves m) ∨ c.bgErr = true) : c.broadcast.Attended where
  positive := hpos
  ordered := hordered
  l0 := fun _ hw hasleep => absurd hasleep (not_asleep_broadcast hw)
  imm := fun _ hw hasleep => absurd hasleep (not_asleep_broadcast hw)
  flush := by
    intro m hm
    rcases hflush m hm with hserved | hbgErr
    · exact Or.inl hserved
    · exact Or.inr ⟨hbgErr, fun _ hw => not_asleep_broadcast hw⟩

namespace Attended

theorem set_flusher (h : c.Attended) {j : Nat} {f f' : Flusher} (hj : c.flushers[j]? = some f)
    (hserves : forall m, c.imm = some m -> f.Serves m -> f'.Serves m) (m : MemTable)
    (hm : c.imm = some m) :
    (exists g, g ∈ c.flushers.set j f' ∧ g.Serves m) ∨
      (c.bgErr = true ∧ forall w, w ∈ c.writers -> ¬ w.Asleep .imm) := by
  rcases h.flush m hm with ⟨g, hg, hserved⟩ | hwoken
  · left
    rcases List.mem_iff_getElem?.mp hg with ⟨i, hi⟩
    rcases List.getElem?_eq_some_iff.mp hj with ⟨hlt, _⟩
    rcases Decidable.em (j = i) with rfl | hne
    · rw [hj] at hi
      cases hi
      exact ⟨f', List.mem_set hlt f', hserves m hm hserved⟩
    · refine ⟨g, ?_, hserved⟩
      apply List.mem_of_getElem? (i := i)
      rw [List.getElem?_set_ne hne]
      exact hi
  · exact Or.inr hwoken

theorem erase_flusher (h : c.Attended) {j : Nat} {f : Flusher} (hj : c.flushers[j]? = some f)
    (hserves : forall m, ¬ f.Serves m) (m : MemTable) (hm : c.imm = some m) :
    (exists g, g ∈ c.flushers.eraseIdx j ∧ g.Serves m) ∨ c.bgErr = true := by
  rcases h.flush m hm with ⟨g, hg, hserved⟩ | ⟨hbgErr, _⟩
  · left
    refine ⟨g, ?_, hserved⟩
    rcases List.mem_iff_getElem?.mp hg with ⟨i, hi⟩
    rw [List.mem_eraseIdx_iff_getElem?]
    refine ⟨i, ?_, hi⟩
    rintro rfl
    rw [hj] at hi
    cases hi
    exact hserves m hserved
  · exact Or.inr hbgErr

theorem sleep (h : c.Attended) {w : Waiting}
    (himm : w.wait = .imm -> c.imm.isSome ∧ c.bgErr = false) (hl0 : w.wait = .l0 -> c.Stalled) :
    Attended { c with writers := c.writers ++ [w] } where
  positive := h.positive
  ordered := h.ordered
  l0 := by
    intro w' hw' hasleep
    rcases List.mem_append.mp hw' with hw' | hw'
    · exact h.l0 w' hw' hasleep
    · rw [List.mem_singleton.mp hw'] at hasleep
      exact (hl0 hasleep.left).compacting h.positive h.ordered
  imm := by
    intro w' hw' hasleep
    rcases List.mem_append.mp hw' with hw' | hw'
    · exact h.imm w' hw' hasleep
    · rw [List.mem_singleton.mp hw'] at hasleep
      exact (himm hasleep.left).left
  flush := by
    intro m hm
    rcases h.flush m hm with hserved | ⟨hbgErr, hwoken⟩
    · exact Or.inl hserved
    · refine Or.inr ⟨hbgErr, fun w' hw' hasleep => ?_⟩
      rcases List.mem_append.mp hw' with hw' | hw'
      · exact hwoken w' hw' hasleep
      · -- A writer does not begin to wait once the engine is poisoned.
        rw [List.mem_singleton.mp hw'] at hasleep
        rw [(himm hasleep.left).right] at hbgErr
        cases hbgErr

theorem sealed (h : c.Attended) : (c.sealAndFlush true).1.Attended := by
  rw [sealAndFlush_true]
  exact { h with
    imm := fun _ _ _ => rfl
    flush := fun m _ =>
      Or.inl ⟨.starting, List.mem_append_right _ List.mem_cons_self, trivial⟩ }

theorem poison (h : c.Attended) {bound : Nat} :
    Attended { c with bgErr := true, immBound := bound } :=
  { h with flush := fun m hm => (h.flush m hm).imp id fun hwoken => ⟨rfl, hwoken.right⟩ }

theorem change (h : c.Attended) (hchange : Change sizes P c c') : c'.Attended := by
  cases hchange with
  | sleep w _ _ _ himm hl0 => exact h.sleep himm hl0
  | rise j =>
      have hsub : forall w, w ∈ c.writers.eraseIdx j -> w ∈ c.writers :=
        fun w => List.mem_of_mem_eraseIdx
      exact { h with
        l0 := fun w hw => h.l0 w (hsub w hw)
        imm := fun w hw => h.imm w (hsub w hw)
        flush := fun m hm =>
          (h.flush m hm).imp id fun hwoken =>
            ⟨hwoken.left, fun w hw => hwoken.right w (hsub w hw)⟩ }
  | schedule k compactPtr _ _ _ => exact { h with l0 := fun _ _ _ => rfl }
  | rotate id _ => exact { h with }
  | sealed _ _ _ => exact h.sealed
  | sealFailed _ | poison => exact h.poison
  | stray _ _ _ _ =>
      have hpoison : Attended { c with bgErr := true, immBound := c.immBound } := h.poison
      exact { hpoison with }
  | commit b height mem _ _ _ _ => exact { h with }
  | flushStart j imm hj himm =>
      exact { h with
        flush := h.set_flusher hj fun m hm _ => by
          rw [himm] at hm
          cases hm
          exact ⟨rfl, nofun⟩ }
  | flushWrite j cap hj | flushFail j cap stage _ hj _ =>
      exact { h with flush := h.set_flusher hj fun m _ hserved => ⟨hserved.left, nofun⟩ }
  | flushApply j cap v next vsErr hj _ _ =>
      exact attended_broadcast h.positive h.ordered fun m hm => by cases hm
  | flushFailed j cap hj =>
      exact attended_broadcast h.positive h.ordered fun _ _ => Or.inr rfl
  | flushDone j cap pruned hj =>
      refine attended_broadcast h.positive h.ordered ?_
      intro m hm
      rcases h.erase_flusher hj (fun _ hserves => hserves.right rfl) m hm with hserved | hbgErr
      · exact Or.inl hserved
      · refine Or.inr ?_
        show (c.bgErr || !pruned) = true
        rw [hbgErr, Bool.true_or]
  | compactCreate k nums _ _ | compactMerge k nums outs _ _ _ _ | compactFail k vsErr _
  | compactApply k outs v next vsErr _ _ _ _ => exact { h with l0 := fun _ _ _ => rfl }
  | compactFinish k bgErr _ hbgErr =>
      exact attended_broadcast h.positive h.ordered fun m hm =>
        (h.flush m hm).imp id fun hwoken => hbgErr hwoken.left
  | checkpointCall dst _ _ | checkpointWait j k _ | checkpointFailed j k _ => exact { h with }
  | checkpointSeal j k _ _ _ _ => exact { h.sealed with }
  | capture j k fault made _ _ _ _ _ _ _ | closing _ _ | closed _ _ _ _ => exact { h with }

theorem reopened {o : Options} (ho : Ordered o.defaults) (c : Core) (disableWAL : Bool)
    (segments : List (Nat × List Batch)) (replayed : MemTable × Nat) :
    (c.reopened o disableWAL segments replayed).Attended where
  positive := positiveOr_pos (by decide)
  ordered := ho
  l0 := fun _ hw => by cases hw
  imm := fun _ hw => by cases hw
  flush := fun _ hm => by cases hm

end Attended

end Core

def CoreAction.OpensOrdered : CoreAction -> Prop
  | .openDb o _ _ _ => Core.Ordered o.defaults
  | _ => True

instance : DecidablePred CoreAction.OpensOrdered := fun a =>
  match a with
  | .openDb o _ _ _ => inferInstanceAs (Decidable (Core.Ordered o.defaults))
  | .write _ _ | .wake _ _ | .flushImm _ _ | .compact _ | .checkpoint _ _ _
  | .wakeCheckpoint _ _ _ | .close | .closeDrained _ => inferInstanceAs (Decidable True)

namespace Core

variable {sizes : Sizes} {c c' : Core}

theorem awake_of_compact {err : Bool} (h : c.exec sizes (.compact (.finish err)) = .ok c')
    {w : Waiting} (hw : w ∈ c'.writers) : w.awake = true := by
  have hbroadcast : exists c₁ : Core, c' = c₁.broadcast := by
    rw [exec] at h
    unfold compact at h
    split at h
    · cases h
    · next k _ =>
        rcases k with ⟨_, stage⟩
        cases stage with
        | merging nums | merged outs => cases h
        | finishing failed =>
            dsimp only at h
            split at h
            · cases h
              exact ⟨_, rfl⟩
            · cases h
              exact ⟨_, rfl⟩
  rcases hbroadcast with ⟨c₁, rfl⟩
  rcases List.mem_map.mp hw with ⟨_, _, rfl⟩
  rfl

abbrev ReachedOrdered (sizes : Sizes) : Core -> Prop :=
  Reach (Core.exec sizes) (fun _ a => a.OpensOrdered) {}

theorem attended_of_reached (h : ReachedOrdered sizes c) : c.Attended := by
  have hstart : Attended {} :=
    { positive := by decide
      ordered := by decide
      l0 := fun _ hw => by cases hw
      imm := fun _ hw => by cases hw
      flush := fun _ hm => by cases hm }
  exact (invariant_of_changes (P := fun _ => True) (fun _ _ _ hc => hc.change)
    (fun _ hc _ => { hc with }) (fun c _ _ _ _ _ _ _ ho _ => Attended.reopened ho c _ _ _)
    (fun _ _ _ _ _ => ⟨trivial, fun _ _ _ _ _ _ _ => trivial⟩) h Idle.start hstart).right

/-- A writer that sleeps waits for something that is running. -/
theorem writers_attended (h : ReachedOrdered sizes c) :
    (forall w, w ∈ c.writers -> w.Asleep .l0 -> c.compacting.isSome) ∧
      (forall w, w ∈ c.writers -> w.Asleep .imm ->
        exists m, c.imm = some m ∧ exists f, f ∈ c.flushers ∧ f.Serves m) ∧
      (forall err c', c.exec sizes (.compact (.finish err)) = .ok c' ->
        forall w, w ∈ c'.writers -> w.awake = true) ∧
      ¬ ((exists w, w ∈ c.writers ∧ w.awake = false) ∧ c.bgErr = false ∧ c.flushers = [] ∧
        c.compacting = none) := by
  have hattended := attended_of_reached h
  have himm : forall w, w ∈ c.writers -> w.Asleep .imm ->
      exists m, c.imm = some m ∧ exists f, f ∈ c.flushers ∧ f.Serves m := by
    intro w hw hasleep
    rcases Option.isSome_iff_exists.mp (hattended.imm w hw hasleep) with ⟨m, hm⟩
    rcases hattended.flush m hm with hserved | ⟨_, hwoken⟩
    · exact ⟨m, hm, hserved⟩
    · exact absurd hasleep (hwoken w hw)
  refine ⟨hattended.l0, himm, fun _ _ hfinish _ => awake_of_compact hfinish, ?_⟩
  rintro ⟨⟨w, hw, hasleep⟩, _, hflushers, hcompacting⟩
  cases hwait : w.wait with
  | imm =>
      rcases himm w hw ⟨hwait, hasleep⟩ with ⟨m, _, f, hf, _⟩
      rw [hflushers] at hf
      cases hf
  | l0 =>
      have hsome := hattended.l0 w hw ⟨hwait, hasleep⟩
      rw [hcompacting] at hsome
      cases hsome

/-!
Two writes fill a memtable each, and the first one is flushed; then a third write
finds level 0 full.
-/

def stallSizes : Sizes where
  estimated := List.length
  file := List.length

def plainWrite : WriteEnv := {}

def stallRun (o : Options) : List CoreAction :=
  [.openDb o false false fun _ => ⟨0, by decide⟩, .write [.put [97] []] {},
    .write [.put [98] []] {}, .flushImm 0 .start, .flushImm 0 (.write true),
    .flushImm 0 (.apply .written), .flushImm 0 (.finish true), .write [.put [99] []] {}]

theorem writers_attended_compaction :
    exists c : Core, ReachedOrdered stallSizes c ∧
      (exists w, w ∈ c.writers ∧ w.Asleep .l0) ∧ c.compacting.isSome := by
  have hrun : okWith (runWhile (Core.exec stallSizes) (fun _ a => a.OpensOrdered)
      (stallRun { memTableSize := 1, l0CompactThreshold := 1, l0StopThreshold := 1 }) {})
      (fun c => decide (exists w, w ∈ c.writers ∧ w.Asleep .l0)) = true := by
    decide +kernel
  rcases exists_of_okWith hrun with ⟨c, hc, hasleep⟩
  have hreached : ReachedOrdered stallSizes c := Reach.of_runWhile hc
  rcases of_decide_eq_true hasleep with ⟨w, hw, hw'⟩
  exact ⟨c, hreached, ⟨w, hw, hw'⟩, (writers_attended hreached).left w hw hw'⟩

/-- Where writers stall below the trigger of the compactions, the writer sleeps and
nothing runs that could wake it. -/
theorem writer_sleeps_unattended :
    exists c : Core, Reach (Core.exec stallSizes) (fun _ _ => True) {} c ∧
      (exists w, w ∈ c.writers ∧ w.Asleep .l0) ∧ c.bgErr = false ∧ c.flushers = [] ∧
      c.compacting.isSome = false := by
  have hrun : okWith (runWhile (Core.exec stallSizes) (fun _ _ => True)
      (stallRun { memTableSize := 1, l0CompactThreshold := 2, l0StopThreshold := 1 }) {})
      (fun c => decide ((exists w, w ∈ c.writers ∧ w.Asleep .l0) ∧ c.bgErr = false ∧
        c.flushers = [] ∧ c.compacting.isSome = false)) = true := by
    decide +kernel
  rcases exists_of_okWith hrun with ⟨c, hc, hstate⟩
  exact ⟨c, Reach.of_runWhile hc, of_decide_eq_true hstate⟩

end Core

end Engine
end Basalt
