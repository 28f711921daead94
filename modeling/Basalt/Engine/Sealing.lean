import Basalt.Engine.Sound
import Basalt.Engine.Stall

/-!
# Every sealed memtable is flushed

`makeRoomLocked` waits for the flush of the sealed memtable, and then for level 0.
It does not look at the sealed memtable again after the second wait.  A writer that
comes back from it and finds the memtable full once more seals it over the one that
waits for its flush.

Where that does not happen, every memtable is sealed once the one before is flushed,
and every write is in the memtable, in the sealed one or in the tables.
-/

namespace Basalt
namespace Engine

open Lib Base Std Manifest Wal Compaction

namespace Core

/-- A writer that comes back from the stall of level 0 does not seal a memtable while a
sealed one waits for its flush. -/
def Orderly (c : Core) : CoreAction -> Prop
  | .wake j _ => forall w, w ∈ c.writers[j]? -> w.wait = .l0 -> c.SealsFromL0 -> c.imm = none
  | _ => True

instance (c : Core) : DecidablePred c.Orderly := fun a =>
  match a with
  | .wake _ _ => inferInstanceAs (Decidable (forall w, w ∈ _ -> _))
  | .openDb _ _ _ _ | .write _ _ | .flushImm _ _ | .compact _ | .checkpoint _ _ _
  | .wakeCheckpoint _ _ _ | .close | .closeDrained _ => inferInstanceAs (Decidable True)

end Core

def CoreAction.Running : CoreAction -> Prop
  | .openDb _ _ _ _ => False
  | _ => True

instance : DecidablePred CoreAction.Running := fun a =>
  match a with
  | .openDb _ _ _ _ => inferInstanceAs (Decidable False)
  | .write _ _ | .wake _ _ | .flushImm _ _ | .compact _ | .checkpoint _ _ _
  | .wakeCheckpoint _ _ _ | .close | .closeDrained _ => inferInstanceAs (Decidable True)

namespace Core

variable {sizes : Sizes} {c c' : Core}

def OpensClean (c : Core) : CoreAction -> Prop
  | .openDb _ _ _ _ => c.bgErr = false
  | _ => True

instance (c : Core) : DecidablePred c.OpensClean := fun a =>
  match a with
  | .openDb _ _ _ _ => inferInstanceAs (Decidable (_ = false))
  | .write _ _ | .wake _ _ | .flushImm _ _ | .compact _ | .checkpoint _ _ _
  | .wakeCheckpoint _ _ _ | .close | .closeDrained _ => inferInstanceAs (Decidable True)

theorem Orderly.allowed {a : CoreAction} (h : c.Orderly a) : Allowed Vacant c a where
  drained := rfl
  wake := by
    rintro j env w rfl hw hwait hseals
    exact h w hw hwait hseals

/-- The engine is sound along every orderly run that opens it only after a clean
`Close`, and so is what the changes of a sound engine keep. -/
theorem Sound.reach_with {guard : Core -> CoreAction -> Prop} {I : Core -> Prop}
    (hchange : forall c c', c.Idle -> c.Sound -> I c -> Change sizes Vacant c c' -> I c')
    (hrefused : forall c, I c -> c.closed = true -> I { c with segments := c.unflushed })
    (hreopen : forall c o disableWAL disableCompaction height replayed, c.Idle -> c.Sound -> I c ->
      guard c (.openDb o disableWAL disableCompaction height) ->
      c.Reopens disableWAL height replayed -> I (c.reopened o disableWAL c.unflushed replayed))
    (horderly : forall c a, guard c a -> c.Orderly a)
    (hclean : forall c a, guard c a -> c.OpensClean a)
    (h : Reach (exec sizes) guard c c') (hidle : c.Idle) (hc : c.Sound) (hI : I c) :
    c'.Idle ∧ c'.Sound ∧ I c' := by
  refine invariant_of_changes (I := fun c => c.Sound ∧ I c) ?_ ?_ ?_
    (fun c a _ _ ha => (horderly c a ha).allowed) h hidle ⟨hc, hI⟩
  · rintro c c' hidle ⟨hs, hI⟩ hstep
    exact ⟨hs.change hidle hstep, hchange c c' hidle hs hI hstep⟩
  · rintro c ⟨hs, hI⟩ hclosed
    exact ⟨hs.refused, hrefused c hI hclosed⟩
  · rintro c o disableWAL disableCompaction height replayed hidle ⟨hs, hI⟩ ha hopen
    exact ⟨hs.reopened hidle (hclean c _ ha) hopen,
      hreopen c o disableWAL disableCompaction height replayed hidle hs hI ha hopen⟩

theorem all_empty : ({} : Version).all = [] := by
  decide

theorem Layered.empty (t : Sources) : Layered {} t where
  wellFormed := Version.wellFormed_empty
  tables := fun f hf => by
    rw [all_empty] at hf
    cases hf
  apart := fun f _ hf => by
    rw [all_empty] at hf
    cases hf
  recency := fun f _ hf => by
    rw [all_empty] at hf
    cases hf

theorem entries_empty (t : Sources) : entries {} t = [] := by
  unfold entries
  rw [all_empty]
  rfl

theorem Sound.start (dsts : Nat -> Option Dst) : Sound { dsts := dsts } where
  flow := Flow.start dsts
  tables := {
    layered := Layered.empty _
    numbers := fun n hn => by
      rcases Version.mem_live.mp hn with ⟨l, f, hf, _⟩
      cases hf
    flushing := fun _ _ hbad => by cases hbad
    merging := fun _ _ hbad => by cases hbad
    merged := fun _ _ hbad => by cases hbad }
  parts := ⟨[], [], [], {
      committed := rfl
      seq := rfl
      bounded := Nat.zero_le _
      mem := MemTable.HoldsOps.new _ _
      imm := fun _ hbad => by cases hbad
      vacant := fun _ => rfl
      subset := fun p hp => by
        rw [entries_empty] at hp
        cases hp
      shows := by
        rw [entries_empty]
        exact Shows.refl _
      floor := Nat.le_refl 0
      disk := Nat.le_refl 0
      ceiling := Nat.le_refl 0
      sealed := fun hbad => by cases hbad
      stamped := fun hbad => absurd rfl hbad }, {
      rising := List.Pairwise.nil
      anchored := Or.inl rfl
      pruning := fun _ hbad => by cases hbad
      off := fun _ => rfl
      closed := fun _ _ => rfl
      ends := fun _ hbad => by cases hbad
      unflushed := fun hbad => by cases hbad
      bound := fun _ hbad => by cases hbad
      unsealed := fun hbad => by cases hbad
      disabled := fun hbad => by cases hbad }⟩

/-!
## Handing over
-/

/-- What a step makes of the memtables: one is sealed while none waits, or one that
was sealed is installed as a table. -/
inductive Handover (sizes : Sizes) (c c' : Core) : Prop where
  | kept : c'.sealed = c.sealed -> c'.flushed = c.flushed -> Handover sizes c c'
  | sealed (bound : Nat) : c.imm = none ->
      c'.sealed = c.sealed ++ [{ imm := c.mem, sealSeq := c.seq, bound := bound }] ->
      c'.flushed = c.flushed -> Handover sizes c c'
  | flushed (cap : Captured) : .running cap .written ∈ c.flushers ->
      applyEdit c.version (flushEdit sizes cap) = .ok c'.version ->
      c'.sealed = c.sealed -> c'.flushed = c.flushed ++ [cap] -> Handover sizes c c'

structure Kept (c c' : Core) : Prop where
  sealed : c'.sealed = c.sealed
  flushed : c'.flushed = c.flushed
  version : c'.version = c.version

theorem Kept.handover (h : Kept c c') : Handover sizes c c' :=
  .kept h.sealed h.flushed

theorem Handover.trans_kept {c'' : Core} (h : Handover sizes c c') (hkept : Kept c' c'') :
    Handover sizes c c'' := by
  rcases hkept with ⟨hsealed, hflushed, hversion⟩
  cases h with
  | kept hs hf => exact .kept (hsealed.trans hs) (hflushed.trans hf)
  | sealed bound himm hs hf => exact .sealed bound himm (hsealed.trans hs) (hflushed.trans hf)
  | flushed cap hcap hedit hs hf =>
      rw [← hversion] at hedit
      exact .flushed cap hcap hedit (hsealed.trans hs) (hflushed.trans hf)

theorem kept_maybeScheduleCompaction (c : Core) : Kept c c.maybeScheduleCompaction := by
  unfold maybeScheduleCompaction
  split
  · exact ⟨rfl, rfl, rfl⟩
  · split
    · exact ⟨rfl, rfl, rfl⟩
    · exact ⟨rfl, rfl, rfl⟩

theorem commit_cases {ops : List Op} {env : WriteEnv} (h : c.commit ops env = .ok c') :
    c' = c ∨ (exists segments, c' = { c with bgErr := true, segments := segments }) ∨
    exists segments wal mem, c' = { c with
      segments := segments
      wal := wal
      mem := mem
      seq := c.seq + ops.length
      committed := c.committed ++ [{ baseSeq := c.seq + 1, ops := ops }] } := by
  unfold commit at h
  dsimp only at h
  split at h
  · split at h
    · cases h
      exact Or.inl rfl
    · cases h
      exact Or.inr (Or.inl ⟨_, rfl⟩)
    · split at h
      · rcases bind_eq_ok.mp h with ⟨mem, _, h⟩
        cases h
        exact Or.inr (Or.inr ⟨_, _, mem, rfl⟩)
      · rcases bind_eq_ok.mp h with ⟨mem, _, h⟩
        cases h
        exact Or.inr (Or.inr ⟨_, c.wal, mem, rfl⟩)
  · rcases bind_eq_ok.mp h with ⟨mem, _, h⟩
    cases h
    exact Or.inr (Or.inr ⟨c.segments, c.wal, mem, rfl⟩)

theorem kept_commit {ops : List Op} {env : WriteEnv} (h : c.commit ops env = .ok c') :
    Kept c c' := by
  rcases commit_cases h with rfl | ⟨_, rfl⟩ | ⟨_, _, _, rfl⟩
  · exact ⟨rfl, rfl, rfl⟩
  · exact ⟨rfl, rfl, rfl⟩
  · exact ⟨rfl, rfl, rfl⟩

theorem handover_seal (himm : c.imm = none) (rotated : Bool) :
    Handover sizes c (c.sealAndFlush rotated).1 := by
  rcases sealAndFlush_cases c rotated with h | h
  · rw [h, sealAndFlush_true]
    exact .sealed _ himm rfl rfl
  · rw [h]
    exact .kept rfl rfl

theorem handover_stallL0 (himm : c.SealsFromL0 -> c.imm = none)
    (rotated : Bool) : Handover sizes c (c.stallL0 rotated).1 := by
  unfold stallL0
  split
  · exact (kept_maybeScheduleCompaction c).handover
  · next hstall =>
      split
      · exact .kept rfl rfl
      · next hbgErr =>
          split
          · exact .kept rfl rfl
          · next hsize =>
              have hseals : c.SealsFromL0 :=
                ⟨(Bool.not_eq_true _).mp hbgErr, hstall, Int.not_lt.mp hsize⟩
              have hseal : Handover sizes c (c.sealAndFlush rotated).1 :=
                handover_seal (himm hseals) rotated
              rcases h : c.sealAndFlush rotated with ⟨c₁, ok⟩
              rw [h] at hseal
              cases ok with
              | true | false => exact hseal

theorem handover_waitImm (rotated : Bool) : Handover sizes c (c.waitImm rotated).1 := by
  unfold waitImm
  split
  · exact .kept rfl rfl
  · next hwait =>
      split
      · exact .kept rfl rfl
      · next hbgErr =>
          apply handover_stallL0
          intro _
          rw [← Option.not_isSome_iff_eq_none]
          exact fun hsome => hwait ⟨hsome, hbgErr⟩

theorem handover_proceed {ops : List Op} {env : WriteEnv} {r : Core × Room}
    (hr : Handover sizes c r.1) (h : proceed ops env r = .ok c') : Handover sizes c c' := by
  rcases r with ⟨c₁, room⟩
  cases room with
  | go => exact hr.trans_kept (kept_commit h)
  | sleep wait =>
      cases h
      exact hr.trans_kept ⟨rfl, rfl, rfl⟩
  | fail =>
      cases h
      exact hr

theorem handover_write {ops : List Op} {env : WriteEnv} (h : c.write ops env = .ok c') :
    Handover sizes c c' := by
  unfold write at h
  split at h
  · cases h
  · split at h
    · cases h
      exact .kept rfl rfl
    · apply handover_proceed _ h
      unfold makeRoomLocked
      split
      · exact .kept rfl rfl
      · exact handover_waitImm env.rotated

theorem handover_wake {j : Nat} {env : WriteEnv} (horderly : c.Orderly (.wake j env))
    (h : c.wake j env = .ok c') : Handover sizes c c' := by
  unfold wake at h
  split at h
  · next w hw =>
      split at h
      · have hresume : Handover sizes { c with writers := c.writers.eraseIdx j }
            (resume { c with writers := c.writers.eraseIdx j } env.rotated w.wait).1 := by
          cases hwait : w.wait with
          | imm => exact handover_waitImm env.rotated
          | l0 =>
              apply handover_stallL0
              intro hseals
              exact horderly w hw hwait ⟨hseals.healthy, hseals.stall, hseals.full⟩
        have hboth := handover_proceed hresume h
        cases hboth with
        | kept hs hf => exact .kept hs hf
        | sealed bound himm hs hf => exact .sealed bound himm hs hf
        | flushed cap hcap hedit hs hf => exact .flushed cap hcap hedit hs hf
      · cases h
  · cases h

theorem kept_capture (c : Core) (k : Checkpointing) (fault : CaptureStep -> Bool) :
    Kept c (c.capture k fault) := by
  unfold capture
  split
  · exact ⟨rfl, rfl, rfl⟩
  · cases c.fill k.before fault with
    | none | some made => exact ⟨rfl, rfl, rfl⟩

theorem handover_checkpointFrom (k : Checkpointing) (rotated : Bool)
    (fault : CaptureStep -> Bool) : Handover sizes c (c.checkpointFrom k rotated fault) := by
  unfold checkpointFrom
  split
  · split
    · exact .kept rfl rfl
    · exact .kept rfl rfl
  · next hdrained =>
      split
      · exact .kept rfl rfl
      · split
        · next hseal =>
            have himm : c.imm = none := by
              rw [← Option.not_isSome_iff_eq_none]
              exact fun hsome => hdrained (Or.inr (Or.inr ⟨hsome, hseal.left⟩))
            have hsealed : Handover sizes c (c.sealAndFlush rotated).1 := handover_seal himm rotated
            rcases h : c.sealAndFlush rotated with ⟨c₁, ok⟩
            rw [h] at hsealed
            cases ok with
            | true | false => exact hsealed.trans_kept ⟨rfl, rfl, rfl⟩
        · exact (kept_capture c k fault).handover

theorem handover_closeDrained {rotated : Bool} (h : c.closeDrained rotated = .ok c') :
    Handover sizes c c' := by
  unfold closeDrained at h
  split at h
  · cases h
  · next hdrained =>
      split at h
      · next hseal =>
          have himm : c.imm = none := by
            rw [← Option.not_isSome_iff_eq_none]
            exact fun hsome => hdrained (Or.inr (Or.inr (Or.inr (Or.inr ⟨hsome, hseal.left⟩))))
          have hsealed : Handover sizes c (c.sealAndFlush rotated).1 := handover_seal himm rotated
          rcases hr : c.sealAndFlush rotated with ⟨c₁, ok⟩
          rw [hr] at hsealed h
          cases ok with
          | true =>
              cases h
              exact hsealed
          | false =>
              cases h
              exact hsealed.trans_kept ⟨rfl, rfl, rfl⟩
      · cases h
        exact .kept rfl rfl

theorem handover_flushImm {j : Nat} {event : FlushEvent}
    (h : c.flushImm sizes j event = .ok c') : Handover sizes c c' := by
  unfold flushImm at h
  split at h
  · cases himm : c.imm with
    | none =>
        rw [himm] at h
        cases h
    | some imm =>
        rw [himm] at h
        cases h
        exact .kept rfl rfl
  · cases h
    exact .kept rfl rfl
  · cases h
    exact .kept rfl rfl
  · next cap logged hj =>
      rcases apply_cases c (flushEdit sizes cap) logged with
        ⟨v, next, vsErr, _, hcheck, _, happly⟩ | happly
      · rw [happly] at h
        cases h
        have hinstalled : Handover sizes c { c with
            version := v
            logNumber := cap.bound
            lastSeq := cap.sealSeq
            diskSeq := cap.sealSeq
            nextFileNum := next
            vsErr := vsErr
            imm := none
            flushed := c.flushed ++ [cap]
            flushers := c.flushers.set j (.running cap .pruning) } :=
          .flushed cap (List.mem_of_getElem? hj) (of_check_flush hcheck).right.right rfl rfl
        apply (hinstalled.trans_kept (kept_maybeScheduleCompaction _)).trans_kept
        exact ⟨rfl, rfl, rfl⟩
      · rw [happly] at h
        cases h
        exact .kept rfl rfl
  · cases h
    exact .kept rfl rfl
  · cases h
    exact .kept rfl rfl
  · cases h

theorem handover_compact {event : CompactEvent} (h : c.compact sizes event = .ok c') :
    Handover sizes c c' := by
  unfold compact at h
  split at h
  · cases h
  · next k hk =>
      split at h
      · cases h
        exact .kept rfl rfl
      · split at h
        · cases h
          exact .kept rfl rfl
        · split at h
          · cases h
            exact .kept rfl rfl
          · cases h
      · cases h
        exact .kept rfl rfl
      · next outs logged _ =>
          rcases apply_cases c (k.c.edit sizes.file outs) logged with
            ⟨v, next, vsErr, _, _, _, happly⟩ | happly
          · rw [happly] at h
            cases h
            exact .kept rfl rfl
          · rw [happly] at h
            cases h
            exact .kept rfl rfl
      · next failed err _ =>
          dsimp only at h
          split at h
          · cases h
            exact .kept rfl rfl
          · cases h
            have hkept := kept_maybeScheduleCompaction { c with
              compacting := none, bgErr := c.bgErr || failed || err }
            exact .kept hkept.sealed hkept.flushed
      · cases h

/-- What every step of an orderly run makes of the memtables. -/
theorem handover_exec {a : CoreAction} (hrunning : a.Running) (horderly : c.Orderly a)
    (h : c.exec sizes a = .ok c') : Handover sizes c c' := by
  cases a with
  | openDb o disableWAL disableCompaction height => cases hrunning
  | write ops env => exact handover_write h
  | wake j env => exact handover_wake horderly h
  | flushImm j event => exact handover_flushImm h
  | compact event => exact handover_compact h
  | checkpoint dst rotated fault =>
      unfold exec checkpoint at h
      dsimp only at h
      split at h
      · cases h
      · cases h
        exact handover_checkpointFrom _ rotated fault
  | wakeCheckpoint j rotated fault =>
      unfold exec wakeCheckpoint at h
      dsimp only at h
      split at h
      · next k hk =>
          split at h
          · cases h
            have hfrom : Handover sizes { c with checkpointing := c.checkpointing.eraseIdx j } _ :=
              handover_checkpointFrom k rotated fault
            cases hfrom with
            | kept hs hf => exact .kept hs hf
            | sealed bound himm hs hf => exact .sealed bound himm hs hf
            | flushed cap hcap hedit hs hf => exact .flushed cap hcap hedit hs hf
          · cases h
      · cases h
  | close =>
      unfold exec close at h
      dsimp only at h
      split at h
      · cases h
      · cases h
        exact .kept rfl rfl
  | closeDrained rotated => exact handover_closeDrained h

/-!
## The numbers of the memtables
-/

structure Numbered (c : Core) : Prop where
  nodup : (c.sealed.map fun s => s.imm.id).Nodup
  older : forall s, s ∈ c.sealed -> s.imm.id < c.mem.id
  next : c.mem.id < c.mems

theorem id_addAll {m m' : MemTable} {seq : Nat} {height : Nat -> Fin maxHeight} {ops : List Op}
    (h : m.addAll seq height ops = .ok m') : m'.id = m.id := by
  induction ops generalizing m seq with
  | nil =>
      cases h
      rfl
  | cons op ops ih =>
      rw [MemTable.addAll] at h
      rcases bind_eq_ok.mp h with ⟨m₁, hadd, hrest⟩
      rw [ih hrest]
      unfold MemTable.add at hadd
      dsimp only at hadd
      split at hadd
      · cases hadd
      · cases hins : insertPair (opPair seq op) m.pairs with
        | none =>
            rw [hins] at hadd
            cases hadd
        | some pairs =>
            rw [hins] at hadd
            cases hadd
            rfl

theorem id_replayBatches {height : Nat -> Fin maxHeight} {bs : List Batch}
    {r r' : MemTable × Nat} (h : replayBatches height bs r = .ok r') : r'.1.id = r.1.id := by
  induction bs generalizing r with
  | nil =>
      cases h
      rfl
  | cons b bs ih =>
      rw [replayBatches] at h
      rcases bind_eq_ok.mp h with ⟨m, hmem, hrest⟩
      rw [ih hrest]
      exact id_addAll hmem

namespace Numbered

theorem sealed (h : c.Numbered) : (c.sealAndFlush true).1.Numbered := by
  rw [sealAndFlush_true]
  constructor
  · show ((c.sealed ++ [_]).map fun s : Sealed => s.imm.id).Nodup
    rw [List.map_append]
    apply h.nodup.append (List.nodup_singleton _)
    intro i hi hi'
    rcases List.mem_map.mp hi with ⟨s, hs, rfl⟩
    have hlt := h.older s hs
    rw [List.mem_singleton.mp hi'] at hlt
    exact Nat.lt_irrefl _ hlt
  · intro s hs
    have hnext := h.next
    show s.imm.id < c.mems
    rcases List.mem_append.mp hs with hs | hs
    · exact Nat.lt_trans (h.older s hs) hnext
    · rw [List.mem_singleton.mp hs]
      exact hnext
  · exact Nat.lt_succ_self _

theorem change {P : Option MemTable -> Prop} (h : c.Numbered) (hchange : Change sizes P c c') :
    c'.Numbered := by
  cases hchange with
  | sealed _ _ _ => exact h.sealed
  | checkpointSeal j k _ _ _ _ => exact { h.sealed with }
  | commit b height mem _ _ _ hmem =>
      have hid := id_addAll hmem
      exact { h with
        older := fun s hs => by
          show s.imm.id < mem.id
          rw [hid]
          exact h.older s hs
        next := by
          show mem.id < c.mems
          rw [hid]
          exact h.next }
  | sleep _ _ _ _ _ _ | rise _ | schedule _ _ _ _ _ | rotate _ _ | sealFailed _ | poison
  | stray _ _ _ _ | flushStart _ _ _ _ | flushWrite _ _ _ | flushFail _ _ _ _ _ _
  | flushApply _ _ _ _ _ _ _ _
  | flushFailed _ _ _ | flushDone _ _ _ _ | compactCreate _ _ _ _ | compactMerge _ _ _ _ _ _ _
  | compactFail _ _ _ | compactApply _ _ _ _ _ _ _ _ _ | compactFinish _ _ _ _
  | checkpointCall _ _ _ | checkpointWait _ _ _ | checkpointFailed _ _ _
  | capture _ _ _ _ _ _ _ _ _ _ _ | closing _ _ | closed _ _ _ _ => exact { h with }

theorem reopened {disableWAL : Bool} {height : Nat -> Fin maxHeight} {replayed : MemTable × Nat}
    (hopen : c.Reopens disableWAL height replayed) (o : Options) :
    (c.reopened o disableWAL c.unflushed replayed).Numbered where
  nodup := List.nodup_nil
  older := fun _ hbad => by cases hbad
  next := by
    show replayed.1.id < c.mems + 1
    rw [id_replayBatches hopen.replay]
    exact Nat.lt_succ_self _

end Numbered

/-- In every run in which no writer that comes back from the stall of level 0 seals a
memtable while a sealed one waits, memtables are sealed one after the other,
each is installed once, with its own boundary and sequence number, and the writes are
where they belong. -/
theorem sealed_flushed_once {dsts : Nat -> Option Dst}
    (h : Reach (exec sizes) (fun c a => c.Orderly a ∧ c.OpensClean a) { dsts := dsts } c) :
    (forall a c', a.Running -> c.Orderly a -> c.exec sizes a = .ok c' -> Handover sizes c c') ∧
      c.sealed = c.flushed.map Captured.sealed ++ c.pending ∧
      (c.sealed.map fun s => s.imm.id).Nodup ∧
      exists fb sb mb, c.Cut fb sb mb ∧ c.Logs sb mb := by
  have hidle : Idle { dsts := dsts } := { Idle.start with }
  have hstart : Numbered { dsts := dsts } :=
    ⟨List.nodup_nil, fun _ hbad => absurd hbad List.not_mem_nil, Nat.zero_lt_one⟩
  rcases Sound.reach_with (fun _ _ _ _ hn => hn.change) (fun _ hn _ => { hn with })
    (fun _ o _ _ _ _ _ _ _ _ hopen => .reopened hopen o) (fun _ _ ha => ha.left)
    (fun _ _ ha => ha.right) h hidle (Sound.start dsts) hstart with ⟨_, hsound, hnumbered⟩
  exact ⟨fun a c' hrunning horderly => handover_exec hrunning horderly, hsound.flow.sealed,
    hnumbered.nodup, hsound.parts⟩

theorem sealed_flushed_once_stalled :
    exists c : Core, c.flushed.length = 1 ∧ c.writers.length = 1 ∧
      c.sealed = c.flushed.map Captured.sealed ++ c.pending ∧
      exists fb sb mb, c.Cut fb sb mb ∧ c.Logs sb mb := by
  have hrun : okWith (runWhile (exec stallSizes) (fun c a => c.Orderly a ∧ c.OpensClean a)
      (stallRun { memTableSize := 1, l0CompactThreshold := 1, l0StopThreshold := 1 }) {})
      (fun c => decide (c.flushed.length = 1 ∧ c.writers.length = 1)) = true := by
    decide +kernel
  rcases exists_of_okWith hrun with ⟨c, hc, hstate⟩
  rcases of_decide_eq_true hstate with ⟨hflushed, hwriters⟩
  have hreach : Reach (exec stallSizes) (fun c a => c.Orderly a ∧ c.OpensClean a)
      { dsts := fun _ => none } c := Reach.of_runWhile hc
  rcases sealed_flushed_once hreach with ⟨_, hsealed, _, hparts⟩
  exact ⟨c, hflushed, hwriters, hsealed, hparts⟩

/-!
Two writers wait for level 0.  The first one seals the memtable, and its own batch
fills the next; the second one then seals that.
-/

def overwriting : List CoreAction :=
  [.openDb { memTableSize := 1, l0CompactThreshold := 1, l0StopThreshold := 1 } false false
      plainWrite.height,
    .write [.put [97] []] plainWrite, .write [.put [98] []] plainWrite, .flushImm 0 .start,
    .flushImm 0 (.write true), .flushImm 0 (.apply .written), .flushImm 0 (.finish true),
    .write [.put [99] []] plainWrite, .write [.put [100] []] plainWrite, .compact .create,
    .compact (.merge true), .compact (.apply .written), .compact (.finish false),
    .wake 0 plainWrite, .wake 0 plainWrite]

/-- The memtable with the second write is overwritten: the write is in no memtable and
in no table. -/
theorem write_overwritten :
    exists c : Core, Reach (exec stallSizes) (fun c a => c.OpensClean a) {} c ∧
      (exists b, b ∈ c.committed ∧ b.ops = [.put [98] []]) ∧ c.bgErr = false ∧
      forall p, p ∈ c.mem.pairs ++
          ((c.imm.map MemTable.pairs).getD [] ++ entries c.version c.sources) ->
        p.userKey ≠ [98] := by
  have hrun : okWith (runWhile (exec stallSizes) (fun c a => c.OpensClean a) overwriting {})
      (fun c => decide ((exists b, b ∈ c.committed ∧ b.ops = [.put [98] []]) ∧ c.bgErr = false ∧
        forall p, p ∈ c.mem.pairs ++ ((c.imm.map MemTable.pairs).getD [] ++
          entries c.version c.sources) -> p.userKey ≠ [98])) = true := by
    decide +kernel
  rcases exists_of_okWith hrun with ⟨c, hc, hstate⟩
  exact ⟨c, Reach.of_runWhile hc, of_decide_eq_true hstate⟩

end Core

end Engine
end Basalt
