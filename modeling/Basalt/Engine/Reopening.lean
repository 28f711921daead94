import Basalt.Engine.Holdings

/-!
# The log number across openings

A flush carries the boundary of its memtable to the manifest, as the number of the
segment that the log went on with.  Without the log that number is 0.  In a
directory whose manifest names a segment already the edit goes back, and the manifest
refuses it; so `DisableWAL` is for directories that never had a log.
-/

namespace Basalt
namespace Engine

open Lib Base Std Manifest Wal Compaction

namespace Core

variable {sizes : Sizes} {c c' : Core} {fb sb mb : List Batch}

/-- The log is turned off only where the manifest names no segment. -/
def OpensUnnamed (c : Core) : CoreAction -> Prop
  | .openDb _ disableWAL _ _ => disableWAL = true -> c.logNumber = 0
  | _ => True

instance (c : Core) : DecidablePred c.OpensUnnamed := fun a =>
  match a with
  | .openDb _ _ _ _ => inferInstanceAs (Decidable (_ = true -> _ = 0))
  | .write _ _ | .wake _ _ | .flushImm _ _ | .compact _ | .checkpoint _ _ _
  | .wakeCheckpoint _ _ _ | .close | .closeDrained _ => inferInstanceAs (Decidable True)

/-- Without the log the manifest names no segment. -/
def Unnamed (c : Core) : Prop :=
  c.closed = false -> c.wal = none -> c.logNumber = 0

theorem Sound.bound_of_flusher (h : c.Sound) (hidle : c.Idle) {cap : Captured} {stage : FlushStage}
    (hcap : .running cap stage ∈ c.flushers) (hstage : stage ≠ .pruning) (hwal : c.wal = none) :
    cap.bound = 0 := by
  rcases h.parts with ⟨fb, sb, mb, _, hlogs⟩
  rcases h.flow.captured cap stage hcap hstage with ⟨himm, _, hbound⟩
  have hsome : c.imm.isSome := by
    rw [himm]
    rfl
  rw [hbound]
  exact (hlogs.disabled (hidle.open_of_flusher hcap) hwal).right hsome

theorem Unnamed.change (h : c.Unnamed) (hidle : c.Idle) (hsound : c.Sound)
    (hchange : Change sizes Vacant c c') : c'.Unnamed := by
  cases hchange with
  | rotate id hwal => exact fun _ hnone => by cases hnone
  | sealed hnone hclosed hsize =>
      rw [sealAndFlush_true]
      exact fun hopen hnone => h hopen (Option.map_eq_none_iff.mp hnone)
  | checkpointSeal j k hj hclosed hnone hsize =>
      rw [sealAndFlush_true]
      exact fun hopen hnone => h hopen (Option.map_eq_none_iff.mp hnone)
  | flushApply j cap v next vsErr hj hcheck hnext =>
      exact fun _ hwal => hsound.bound_of_flusher hidle (List.mem_of_getElem? hj) nofun hwal
  | closed _ _ _ _ => exact fun hopen => by cases hopen
  | sleep | rise | schedule | sealFailed | poison | stray | commit | flushStart | flushWrite
  | flushFail | flushFailed | flushDone | compactCreate | compactMerge | compactFail | compactApply
  | compactFinish | checkpointCall | checkpointWait | checkpointFailed | capture | closing =>
      exact h

theorem Sound.numbers_of_flusher (h : c.Sound) (hidle : c.Idle) (hunnamed : c.Unnamed)
    {cap : Captured} {stage : FlushStage} (hcap : .running cap stage ∈ c.flushers)
    (hstage : stage ≠ .pruning) : c.logNumber ≤ cap.bound ∧ c.lastSeq ≤ cap.sealSeq := by
  rcases h.parts with ⟨fb, sb, mb, hcut, hlogs⟩
  rcases h.flow.captured cap stage hcap hstage with ⟨himm, hseq, hbound⟩
  have hsome : c.imm.isSome := by
    rw [himm]
    rfl
  constructor
  · rw [hbound]
    cases hwal : c.wal with
    | none =>
        rw [hunnamed (hidle.open_of_flusher hcap) hwal]
        exact Nat.zero_le _
    | some id => exact (hlogs.bound id hwal hsome).left
  · rw [hseq]
    exact hcut.sealed hsome

theorem Sound.accepts_flush (h : c.Sound) (hidle : c.Idle) (hunnamed : c.Unnamed) {cap : Captured}
    (hcap : .running cap .written ∈ c.flushers) (sizes : Sizes) :
    exists v, c.versionSet.check (flushEdit sizes cap) = .ok v := by
  rcases h.parts with ⟨fb, sb, mb, hcut, _⟩
  rcases received_flush h.flow h.tables hcut hcap sizes with ⟨v, hedit, _, _⟩
  rcases h.numbers_of_flusher hidle hunnamed hcap nofun with ⟨hlog, hseq⟩
  refine ⟨v, ?_⟩
  unfold VersionSet.check
  rw [if_neg, if_neg]
  · exact mapError_eq_ok.mpr hedit
  · exact Nat.not_lt.mpr hseq
  · exact Nat.not_lt.mpr hlog

theorem committed_openDb {o : Options} {disableWAL disableCompaction : Bool}
    {height : Nat -> Fin maxHeight}
    (h : c.openDb o disableWAL disableCompaction height = .ok c') : c'.committed = c.committed := by
  unfold openDb at h
  dsimp only at h
  split at h
  · cases h
  · split at h
    · cases h
      rfl
    · rcases bind_eq_ok.mp h with ⟨replayed, _, h⟩
      cases h
      split
      · rfl
      · unfold maybeScheduleCompaction
        split
        · rfl
        · split
          · rfl
          · rfl

/-- No flush sends the manifest a number below the manifest's own, and after a clean
`Close` the next `Open` finds every write. -/
theorem flush_edits_accepted {dsts : Nat -> Option Dst}
    (h : Reach (exec sizes) (fun c a => c.Orderly a ∧ c.OpensClean a ∧ c.OpensUnnamed a)
      { dsts := dsts } c) :
    (forall cap stage, .running cap stage ∈ c.flushers -> stage ≠ .pruning ->
      c.logNumber ≤ cap.bound ∧ c.lastSeq ≤ cap.sealSeq) ∧
    (forall cap, .running cap .written ∈ c.flushers ->
      exists v, c.versionSet.check (flushEdit sizes cap) = .ok v) ∧
    (forall o disableWAL disableCompaction height c', c.bgErr = false ->
      c.exec sizes (.openDb o disableWAL disableCompaction height) = .ok c' ->
      forall k v, Binds c'.stored k v <-> mapOf c.committed k = some v) := by
  have hidle : Idle { dsts := dsts } := { Idle.start with }
  have hunnamed : Unnamed { dsts := dsts } := fun _ _ => rfl
  have hsound : c.Idle ∧ c.Sound ∧ c.Unnamed := by
    refine Sound.reach_with (fun _ _ hidle hs hn => hn.change hidle hs)
      (fun _ hn _ => hn) ?_ (fun _ _ ha => ha.left) (fun _ _ ha => ha.right.left) h hidle
      (Sound.start dsts) hunnamed
    intro c o disableWAL disableCompaction height replayed _ _ _ ha _ _ hwal
    cases disableWAL with
    | true => exact ha.right.right rfl
    | false => cases hwal
  rcases hsound with ⟨hidle, hs, hn⟩
  refine ⟨fun cap stage => hs.numbers_of_flusher hidle hn,
    fun cap hcap => hs.accepts_flush hidle hn hcap sizes, ?_⟩
  intro o disableWAL disableCompaction height c' hclean hopen k v
  have hstep : Reach (exec sizes) (fun c a => c.Orderly a ∧ c.OpensClean a) c c' :=
    Reach.step (a := .openDb o disableWAL disableCompaction height) Reach.start
      ⟨trivial, hclean⟩ hopen
  rcases Sound.reach_with (I := fun _ => True) (fun _ _ _ _ _ _ => trivial) (fun _ _ _ => trivial)
    (fun _ _ _ _ _ _ _ _ _ _ _ => trivial) (fun _ _ ha => ha.left) (fun _ _ ha => ha.right) hstep
    hidle hs trivial with ⟨_, hs', _⟩
  rcases hs'.parts with ⟨fb, sb, mb, hcut, _⟩
  rw [← committed_openDb hopen]
  exact hcut.stored_binds k v

/-!
A directory with a log is drained by `Close`, opened without the log, written to and
closed again.
-/

def installing (c : Core) : Option Captured :=
  c.flushers.findSome? fun
    | .running cap .written => some cap
    | _ => none

theorem mem_of_installing {cap : Captured} (h : c.installing = some cap) :
    .running cap .written ∈ c.flushers := by
  rcases List.exists_of_findSome?_eq_some h with ⟨f, hf, hcap⟩
  split at hcap
  · cases hcap
    exact hf
  · cases hcap

/-- The manifest is asked next. -/
def switching (disableWAL : Bool) : List CoreAction :=
  [.openDb {} false false plainWrite.height, .write [.put [97] [1]] plainWrite, .close,
    .closeDrained true, .flushImm 0 .start, .flushImm 0 (.write true),
    .flushImm 0 (.apply .written), .flushImm 0 (.finish true), .closeDrained true,
    .openDb {} disableWAL false plainWrite.height, .write [.put [98] [2]] plainWrite, .close,
    .closeDrained true, .flushImm 0 .start, .flushImm 0 (.write true)]

theorem flush_edits_accepted_reopened :
    exists (c : Core) (cap : Captured), .running cap .written ∈ c.flushers ∧ 0 < c.logNumber ∧
      exists v, c.versionSet.check (flushEdit stallSizes cap) = .ok v := by
  have hrun : okWith (runWhile (exec stallSizes)
      (fun c a => c.Orderly a ∧ c.OpensClean a ∧ c.OpensUnnamed a) (switching false) {})
      (fun c => decide (c.installing.isSome ∧ 0 < c.logNumber)) = true := by
    decide +kernel
  rcases exists_of_okWith hrun with ⟨c, hc, hstate⟩
  rcases of_decide_eq_true hstate with ⟨hsome, hlog⟩
  rcases Option.isSome_iff_exists.mp hsome with ⟨cap, hcap⟩
  have hreach : Reach (exec stallSizes)
      (fun c a => c.Orderly a ∧ c.OpensClean a ∧ c.OpensUnnamed a) { dsts := fun _ => none } c :=
    Reach.of_runWhile hc
  have hmem := mem_of_installing hcap
  exact ⟨c, cap, hmem, hlog, (flush_edits_accepted hreach).right.left cap hmem⟩

/-- The flush of a second opening without the log: its edit is refused, and the engine
is poisoned, although every file was written. -/
theorem flush_edit_refused :
    exists (c : Core) (cap : Captured),
      Reach (exec stallSizes) (fun c a => c.Orderly a ∧ c.OpensClean a) {} c ∧ c.bgErr = false ∧
      .running cap .written ∈ c.flushers ∧ cap.bound < c.logNumber ∧
      okWith (runWhile (exec stallSizes) (fun c a => c.Orderly a ∧ c.OpensClean a)
        [.flushImm 0 (.apply .written), .flushImm 0 (.finish true)] c)
        (fun c => c.bgErr) = true := by
  have hrun : okWith (runWhile (exec stallSizes) (fun c a => c.Orderly a ∧ c.OpensClean a)
      (switching true) {})
      (fun c => decide ((exists cap, cap ∈ c.installing ∧ cap.bound < c.logNumber) ∧
        c.bgErr = false ∧
        okWith (runWhile (exec stallSizes) (fun c a => c.Orderly a ∧ c.OpensClean a)
          [.flushImm 0 (.apply .written), .flushImm 0 (.finish true)] c)
          (fun c => c.bgErr) = true)) = true := by
    decide +kernel
  rcases exists_of_okWith hrun with ⟨c, hc, hstate⟩
  rcases of_decide_eq_true hstate with ⟨⟨cap, hcap, hbound⟩, hbgErr, hpoisoned⟩
  exact ⟨c, cap, Reach.of_runWhile hc, hbgErr, mem_of_installing hcap, hbound, hpoisoned⟩

end Core

end Engine
end Basalt
