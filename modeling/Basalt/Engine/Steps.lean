import Mathlib.Logic.Relation
import Basalt.Engine.Core

/-!
# What a step of the engine does

Every step is a sequence of a few kinds of changes.  An invariant is one that each
of them keeps.
-/

namespace Basalt
namespace Engine

open Lib Base Manifest Wal Compaction

namespace Core

/-- A writer that stalls finds level 0 full, and a compaction that runs unless there
is none to pick. -/
structure Stalled (c : Core) : Prop where
  full : c.opts.l0StopThreshold ≤ c.l0.length
  healthy : c.bgErr = false
  scheduled : c.compacting.isSome ∨ pickCompaction c.opts c.version c.compactPtr = none

/-- A writer that leaves the stall of level 0 here seals the memtable. -/
structure SealsFromL0 (c : Core) : Prop where
  healthy : c.bgErr = false
  stall : ¬ (c.opts.l0StopThreshold ≤ c.l0.length ∧ ¬ c.bgErr ∧ ¬ c.closing)
  full : c.opts.memTableSize ≤ c.mem.size

instance (c : Core) : Decidable c.SealsFromL0 :=
  decidable_of_iff
    (c.bgErr = false ∧ ¬ (c.opts.l0StopThreshold ≤ c.l0.length ∧ ¬ c.bgErr ∧ ¬ c.closing) ∧
      c.opts.memTableSize ≤ c.mem.size)
    ⟨fun h => ⟨h.left, h.right.left, h.right.right⟩, fun h => ⟨h.healthy, h.stall, h.full⟩⟩

/-- The changes of an engine that is open.  A memtable is sealed only where `P` holds
of `imm`. -/
inductive Change (sizes : Sizes) (P : Option MemTable -> Prop) (c : Core) : Core -> Prop where
  | sleep (w : Waiting) (hclosing : c.closing = false) (hclosed : c.closed = false)
      (hawake : w.awake = false)
      (himm : w.wait = .imm -> c.imm.isSome ∧ c.bgErr = false)
      (hl0 : w.wait = .l0 -> c.Stalled) :
      Change sizes P c { c with writers := c.writers ++ [w] }
  | rise (j : Nat) : Change sizes P c { c with writers := c.writers.eraseIdx j }
  | schedule (k : Compaction) (compactPtr : Level -> Option Bytes) (hclosed : c.closed = false)
      (hnone : c.compacting = none)
      (hpick : pickCompaction c.opts c.version c.compactPtr = some (k, compactPtr)) :
      Change sizes P c { c with compactPtr := compactPtr, compacting := some { c := k } }
  | rotate (id : Nat) (hwal : c.wal = some id) :
      Change sizes P c
        { c with wal := some (id + 1), segments := c.segments ++ [(id + 1, [])] }
  | sealed (hP : P c.imm) (hclosed : c.closed = false)
      (hsize : c.opts.memTableSize ≤ c.mem.size ∨ 0 < c.mem.size) :
      Change sizes P c (c.sealAndFlush true).1
  | sealFailed (hP : P c.imm) : Change sizes P c { c with bgErr := true, immBound := 0 }
  | poison : Change sizes P c { c with bgErr := true }
  | stray (id : Nat) (b : Batch) (hwal : c.wal = some id) (hbgErr : c.bgErr = false) :
      Change sizes P c { c with bgErr := true, segments := logBatch c.segments id b }
  | commit (b : Batch) (height : Nat -> Fin maxHeight) (mem : MemTable) (hclosed : c.closed = false)
      (hbgErr : c.bgErr = false) (hbase : b.baseSeq = c.seq + 1)
      (hmem : c.mem.addAll b.baseSeq height b.ops = .ok mem) :
      Change sizes P c
        { c with
          segments := c.wal.elim c.segments fun id => logBatch c.segments id b
          mem := mem
          seq := c.seq + b.ops.length
          committed := c.committed ++ [b] }
  | flushStart (j : Nat) (imm : MemTable) (hj : c.flushers[j]? = some .starting)
      (himm : c.imm = some imm) :
      Change sizes P c
        { c with
          nextFileNum := c.nextFileNum + 1
          flushers := c.flushers.set j (.running {
            num := c.nextFileNum
            imm := imm
            sealSeq := c.immSeq
            bound := c.immBound } .writing) }
  | flushWrite (j : Nat) (cap : Captured) (hj : c.flushers[j]? = some (.running cap .writing)) :
      Change sizes P c
        { c with
          sources := written c.sources [cap.output]
          flushers := c.flushers.set j (.running cap .written) }
  | flushFail (j : Nat) (cap : Captured) (stage : FlushStage) (vsErr : Bool)
      (hj : c.flushers[j]? = some (.running cap stage)) (hstage : stage ≠ .pruning) :
      Change sizes P c
        { c with vsErr := vsErr, flushers := c.flushers.set j (.running cap .failing) }
  | flushApply (j : Nat) (cap : Captured) (v : Version) (next : Nat) (vsErr : Bool)
      (hj : c.flushers[j]? = some (.running cap .written))
      (hcheck : c.versionSet.check (flushEdit sizes cap) = .ok v)
      (hnext : c.nextFileNum ≤ next) :
      Change sizes P c
        ({ c with
          version := v
          logNumber := cap.bound
          lastSeq := cap.sealSeq
          diskSeq := cap.sealSeq
          nextFileNum := next
          vsErr := vsErr
          imm := none
          flushed := c.flushed ++ [cap]
          flushers := c.flushers.set j (.running cap .pruning) }.broadcast)
  | flushFailed (j : Nat) (cap : Captured) (hj : c.flushers[j]? = some (.running cap .failing)) :
      Change sizes P c ({ c with bgErr := true, flushers := c.flushers.eraseIdx j }.broadcast)
  | flushDone (j : Nat) (cap : Captured) (pruned : Bool)
      (hj : c.flushers[j]? = some (.running cap .pruning)) :
      Change sizes P c
        ({ c with
          segments :=
            if c.wal.isSome ∧ pruned then c.segments.filter fun s => cap.bound ≤ s.1
            else c.segments
          bgErr := c.bgErr || !pruned
          flushers := c.flushers.eraseIdx j }.broadcast)
  | compactCreate (k : Compacting) (nums : List Nat) (hk : c.compacting = some k)
      (hstage : k.stage = .merging nums) :
      Change sizes P c
        { c with
          nextFileNum := c.nextFileNum + 1
          compacting := some { k with stage := .merging (nums ++ [c.nextFileNum]) } }
  | compactMerge (k : Compacting) (nums : List Nat) (outs : List Output)
      (hk : c.compacting = some k) (hstage : k.stage = .merging nums)
      (houts : k.c.outputs c.opts sizes.estimated (c.allocated nums) c.sources
        (fun _ _ => (none : Option Unit)) = .ok outs)
      (hnums : outs.map Output.fileNum = nums) :
      Change sizes P c
        { c with
          sources := written c.sources outs
          compacting := some { k with stage := .merged outs } }
  | compactFail (k : Compacting) (vsErr : Bool) (hk : c.compacting = some k) :
      Change sizes P c
        { c with vsErr := vsErr, compacting := some { k with stage := .finishing true } }
  | compactApply (k : Compacting) (outs : List Output) (v : Version) (next : Nat) (vsErr : Bool)
      (hk : c.compacting = some k) (hstage : k.stage = .merged outs)
      (hcheck : applyEdit c.version (k.c.edit sizes.file outs) = .ok v)
      (hnext : c.nextFileNum ≤ next) :
      Change sizes P c
        { c with
          version := v
          diskSeq := c.lastSeq
          nextFileNum := next
          vsErr := vsErr
          compacting := some { k with stage := .finishing false } }
  | compactFinish (k : Compacting) (bgErr : Bool) (hk : c.compacting = some k)
      (hbgErr : c.bgErr = true -> bgErr = true) :
      Change sizes P c ({ c with compacting := none, bgErr := bgErr }.broadcast)
  | checkpointCall (dst : Nat) (hclosing : c.closing = false) (hclosed : c.closed = false) :
      Change sizes P c
        { c with
          checkpointing := c.checkpointing ++
            [{ dst := dst, before := c.committed.length, awake := true }] }
  | checkpointWait (j : Nat) (k : Checkpointing) (hj : c.checkpointing[j]? = some k) :
      Change sizes P c
        { c with checkpointing := c.checkpointing.eraseIdx j ++ [{ k with awake := false }] }
  | checkpointFailed (j : Nat) (k : Checkpointing) (hj : c.checkpointing[j]? = some k) :
      Change sizes P c ({ c with checkpointing := c.checkpointing.eraseIdx j }.returns k false)
  | checkpointSeal (j : Nat) (k : Checkpointing) (hj : c.checkpointing[j]? = some k)
      (hclosed : c.closed = false) (himm : c.imm = none) (hsize : 0 < c.mem.size) :
      Change sizes P c
        { (c.sealAndFlush true).1 with
          checkpointing :=
            c.checkpointing.eraseIdx j ++ [{ k with second := true, awake := true }] }
  | capture (j : Nat) (k : Checkpointing) (fault : CaptureStep -> Bool) (made : Checkpoint)
      (hj : c.checkpointing[j]? = some k) (hflushers : c.flushers = [])
      (hcompacting : c.compacting = none) (hbgErr : c.bgErr = false)
      (hfirst : k.second = false -> c.imm = none ∧ c.mem.size = 0)
      (hdst : c.dsts k.dst = none) (hfill : c.fill k.before fault = some made) :
      Change sizes P c
        { ({ c with checkpointing := c.checkpointing.eraseIdx j }.returns k true) with
          dsts := Function.update c.dsts k.dst (some (.checkpoint made)) }
  | closing (hwriters : c.writers = []) (hcheckpointing : c.checkpointing = []) :
      Change sizes P c { c with closing := true }
  | closed (hclosing : c.closing = true) (hflushers : c.flushers = [])
      (hcompacting : c.compacting = none)
      (hbgErr : c.bgErr = true ∨ c.imm = none ∧ c.mem.size = 0) :
      Change sizes P c { c with closed := true, wal := none }

abbrev Changes (sizes : Sizes) (P : Option MemTable -> Prop) : Core -> Core -> Prop :=
  Relation.ReflTransGen (Change sizes P)

variable {sizes : Sizes} {P : Option MemTable -> Prop} {c c' c'' : Core}

/-- Nothing goes on in an engine that is closed, or about to be. -/
structure Idle (c : Core) : Prop where
  closing : c.closing = true -> c.writers = [] ∧ c.checkpointing = []
  closed : c.closed = true -> c.writers = [] ∧ c.checkpointing = [] ∧ c.flushers = [] ∧
    c.compacting = none ∧ (c.bgErr = true ∨ c.imm = none ∧ c.mem.size = 0)

namespace Idle

theorem open_of_writer (h : c.Idle) {w : Waiting} (hw : w ∈ c.writers) :
    c.closing = false ∧ c.closed = false := by
  constructor
  · rw [← Bool.not_eq_true]
    intro hclosing
    rw [(h.closing hclosing).left] at hw
    cases hw
  · rw [← Bool.not_eq_true]
    intro hclosed
    rw [(h.closed hclosed).left] at hw
    cases hw

theorem open_of_flusher (h : c.Idle) {f : Flusher} (hf : f ∈ c.flushers) : c.closed = false := by
  rw [← Bool.not_eq_true]
  intro hclosed
  rw [(h.closed hclosed).2.2.1] at hf
  cases hf

theorem open_of_compacting (h : c.Idle) {k : Compacting} (hk : c.compacting = some k) :
    c.closed = false := by
  rw [← Bool.not_eq_true]
  intro hclosed
  rw [(h.closed hclosed).2.2.2.1] at hk
  cases hk

end Idle

theorem Change.one (h : Change sizes P c c') : Changes sizes P c c' :=
  Relation.ReflTransGen.single h

/-!
## The parts of the steps
-/

theorem changes_maybeScheduleCompaction (hclosed : c.closed = false) :
    Changes sizes P c c.maybeScheduleCompaction := by
  unfold maybeScheduleCompaction
  split
  · exact .refl
  · next hcond =>
      split
      · exact .refl
      · next k compactPtr hpick =>
          apply Change.one
          apply Change.schedule k compactPtr hclosed _ hpick
          rw [← Option.not_isSome_iff_eq_none]
          exact fun hsome => hcond (Or.inl hsome)

theorem broadcast_maybeScheduleCompaction (c : Core) :
    c.maybeScheduleCompaction.broadcast = c.broadcast.maybeScheduleCompaction := by
  unfold maybeScheduleCompaction
  by_cases hcond : c.compacting.isSome ∨ c.closing ∨ c.bgErr
  · have hcond' : c.broadcast.compacting.isSome ∨ c.broadcast.closing ∨ c.broadcast.bgErr := hcond
    rw [if_pos hcond, if_pos hcond']
  · have hcond' : ¬ (c.broadcast.compacting.isSome ∨ c.broadcast.closing ∨ c.broadcast.bgErr) :=
      hcond
    rw [if_neg hcond, if_neg hcond']
    have hpick : pickCompaction c.broadcast.opts c.broadcast.version c.broadcast.compactPtr =
        pickCompaction c.opts c.version c.compactPtr := rfl
    rw [hpick]
    cases pickCompaction c.opts c.version c.compactPtr with
    | none | some r => rfl

theorem sealAndFlush_true (c : Core) :
    (c.sealAndFlush true).1 = { c with
      wal := c.wal.map (· + 1)
      segments := c.wal.elim c.segments fun id => c.segments ++ [(id + 1, [])]
      imm := some c.mem
      mem := { id := c.mems }
      mems := c.mems + 1
      immSeq := c.seq
      immBound := c.wal.elim 0 (· + 1)
      sealed := c.sealed ++
        [{ imm := c.mem, sealSeq := c.seq, bound := c.wal.elim 0 (· + 1) }]
      flushers := c.flushers ++ [.starting] } := by
  unfold sealAndFlush sealLocked
  cases hwal : c.wal with
  | none =>
      show ({ c.freeze 0 with flushers := c.flushers ++ [.starting] } : Core) = _
      unfold freeze
      rw [hwal]
      rfl
  | some id => rfl

theorem sealAndFlush_cases (c : Core) (rotated : Bool) :
    c.sealAndFlush rotated = ((c.sealAndFlush true).1, true) ∨
      c.sealAndFlush rotated = ({ c with bgErr := true, immBound := 0 }, false) := by
  unfold sealAndFlush sealLocked
  cases c.wal with
  | none => exact Or.inl rfl
  | some id =>
      cases rotated with
      | true => exact Or.inl rfl
      | false => exact Or.inr rfl

theorem stalled_of_stallL0 (hfull : c.opts.l0StopThreshold ≤ c.l0.length) (hbgErr : c.bgErr = false)
    (hclosing : c.closing = false) : c.maybeScheduleCompaction.Stalled := by
  unfold maybeScheduleCompaction
  split
  · next hcond =>
      rw [hbgErr, hclosing] at hcond
      simp only [Bool.false_eq_true, or_false] at hcond
      exact ⟨hfull, hbgErr, Or.inl hcond⟩
  · split
    · next hpick => exact ⟨hfull, hbgErr, Or.inr hpick⟩
    · exact ⟨hfull, hbgErr, Or.inl rfl⟩

theorem changes_publish {b : Batch} {height : Nat -> Fin maxHeight}
    {segments : List (Nat × List Batch)} (hclosed : c.closed = false) (hbgErr : c.bgErr = false)
    (hbase : b.baseSeq = c.seq + 1)
    (hsegments : segments = c.wal.elim c.segments fun id => logBatch c.segments id b)
    (h : { c with segments := segments }.publish b height = .ok c') : Change sizes P c c' := by
  rcases bind_eq_ok.mp h with ⟨mem, hmem, h⟩
  cases h
  subst hsegments
  exact .commit b height mem hclosed hbgErr hbase hmem

theorem changes_commit {ops : List Op} {env : WriteEnv} (hclosed : c.closed = false)
    (hbgErr : c.bgErr = false) (h : c.commit ops env = .ok c') : Changes sizes P c c' := by
  unfold commit at h
  dsimp only at h
  split at h
  · next id hwal =>
      have hsegments : forall b, logBatch c.segments id b =
          c.wal.elim c.segments fun id => logBatch c.segments id b := by
        intro b
        rw [hwal]
        rfl
      split at h
      · cases h
        exact .refl
      · cases h
        split
        · exact (Change.stray id _ hwal hbgErr).one
        · exact Change.poison.one
      · split at h
        · -- The new segment follows the record.
          rcases bind_eq_ok.mp h with ⟨mem, hmem, h⟩
          cases h
          have hpublish : { c with
              segments := logBatch c.segments id { baseSeq := c.seq + 1, ops := ops } }.publish
                { baseSeq := c.seq + 1, ops := ops } env.height = .ok _ :=
            bind_eq_ok.mpr ⟨mem, hmem, rfl⟩
          exact (changes_publish hclosed hbgErr rfl (hsegments _) hpublish).one.tail
            (.rotate id hwal)
        · exact (changes_publish hclosed hbgErr rfl (hsegments _) h).one
  · next hwal =>
      apply Change.one
      apply changes_publish hclosed hbgErr rfl _ h
      rw [hwal]
      rfl

/-- What `makeRoomLocked` does, and what a writer that goes to sleep has seen. -/
structure MakesRoom (sizes : Sizes) (P : Option MemTable -> Prop) (c : Core) (r : Core × Room) :
    Prop where
  changes : Changes sizes P c r.1
  closing : r.1.closing = c.closing
  closed : r.1.closed = c.closed
  healthy : r.2 = .go -> r.1.bgErr = false
  sleeps : forall wait, r.2 = .sleep wait ->
    (wait = .imm -> r.1.imm.isSome ∧ r.1.bgErr = false) ∧ (wait = .l0 -> r.1.Stalled)

theorem MakesRoom.goes (hbgErr : c.bgErr = false) : MakesRoom sizes P c (c, .go) :=
  ⟨.refl, rfl, rfl, fun _ => hbgErr, nofun⟩

theorem MakesRoom.fails (c : Core) : MakesRoom sizes P c (c, .fail) :=
  ⟨.refl, rfl, rfl, nofun, nofun⟩

theorem flags_maybeScheduleCompaction (c : Core) :
    c.maybeScheduleCompaction.closing = c.closing ∧
      c.maybeScheduleCompaction.closed = c.closed := by
  unfold maybeScheduleCompaction
  split
  · exact ⟨rfl, rfl⟩
  · split
    · exact ⟨rfl, rfl⟩
    · exact ⟨rfl, rfl⟩

theorem makesRoom_stallL0 (hclosed : c.closed = false)
    (hP : c.SealsFromL0 -> P c.imm) (rotated : Bool) :
    MakesRoom sizes P c (c.stallL0 rotated) := by
  unfold stallL0
  split
  · next hcond =>
      simp only [Bool.not_eq_true] at hcond
      rcases flags_maybeScheduleCompaction c with ⟨hclosing', hclosed'⟩
      refine ⟨changes_maybeScheduleCompaction hclosed, hclosing', hclosed', nofun, ?_⟩
      intro wait hwait
      cases hwait
      exact ⟨fun h => (by cases h), fun _ => stalled_of_stallL0 hcond.1 hcond.2.1 hcond.2.2⟩
  · next hstall =>
      split
      · exact .fails c
      · next hbgErr =>
          have hbgErr := (Bool.not_eq_true _).mp hbgErr
          split
          · exact .goes hbgErr
          · next hsize =>
              have hfull := Int.not_lt.mp hsize
              have hPimm := hP ⟨hbgErr, hstall, hfull⟩
              rcases sealAndFlush_cases c rotated with hseal | hseal
              · rw [hseal]
                constructor
                · exact (Change.sealed hPimm hclosed (Or.inl hfull)).one
                · rw [sealAndFlush_true]
                · rw [sealAndFlush_true]
                · rw [sealAndFlush_true]
                  exact fun _ => hbgErr
                · exact nofun
              · rw [hseal]
                exact ⟨(Change.sealFailed hPimm).one, rfl, rfl, nofun, nofun⟩

theorem makesRoom_waitImm (hclosed : c.closed = false) (hnone : P none) (rotated : Bool) :
    MakesRoom sizes P c (c.waitImm rotated) := by
  unfold waitImm
  split
  · next hcond =>
      refine ⟨.refl, rfl, rfl, nofun, ?_⟩
      intro wait hwait
      cases hwait
      refine ⟨fun _ => ⟨hcond.left, ?_⟩, fun h => by cases h⟩
      rw [← Bool.not_eq_true]
      exact hcond.right
  · next hcond =>
      split
      · exact .fails c
      · next hbgErr =>
          apply makesRoom_stallL0 hclosed
          intro _
          have himm : c.imm = none := by
            rw [← Option.not_isSome_iff_eq_none]
            exact fun hsome => hcond ⟨hsome, hbgErr⟩
          rw [himm]
          exact hnone

theorem makesRoom_makeRoomLocked (hclosed : c.closed = false) (hbgErr : c.bgErr = false)
    (hnone : P none) (rotated : Bool) : MakesRoom sizes P c (c.makeRoomLocked rotated) := by
  unfold makeRoomLocked
  split
  · exact .goes hbgErr
  · exact makesRoom_waitImm hclosed hnone rotated

theorem changes_proceed {ops : List Op} {env : WriteEnv} {r : Core × Room}
    (hclosing : c.closing = false) (hclosed : c.closed = false) (hr : MakesRoom sizes P c r)
    (h : proceed ops env r = .ok c') : Changes sizes P c c' := by
  rcases r with ⟨c₁, room⟩
  have hclosing₁ := hr.closing.trans hclosing
  have hclosed₁ := hr.closed.trans hclosed
  cases room with
  | go => exact hr.changes.trans (changes_commit hclosed₁ (hr.healthy rfl) h)
  | sleep wait =>
      cases h
      rcases hr.sleeps wait rfl with ⟨himm, hl0⟩
      exact hr.changes.tail
        (.sleep { ops := ops, wait := wait } hclosing₁ hclosed₁ rfl himm hl0)
  | fail =>
      cases h
      exact hr.changes

theorem changes_write (hnone : P none) {ops : List Op} {env : WriteEnv}
    (h : c.write ops env = .ok c') : Changes sizes P c c' := by
  unfold write at h
  split at h
  · cases h
  · next hopen =>
      simp only [not_or, Bool.not_eq_true] at hopen
      split at h
      · cases h
        exact .refl
      · next hbgErr =>
          exact changes_proceed hopen.right hopen.left
            (makesRoom_makeRoomLocked hopen.left ((Bool.not_eq_true _).mp hbgErr) hnone _) h

theorem changes_wake (hidle : c.Idle) (hnone : P none) {j : Nat} {env : WriteEnv}
    (hl0 : forall w, c.writers[j]? = some w -> w.wait = .l0 -> c.SealsFromL0 -> P c.imm)
    (h : c.wake j env = .ok c') : Changes sizes P c c' := by
  unfold wake at h
  split at h
  · next w hw =>
      rcases hidle.open_of_writer (List.mem_of_getElem? hw) with ⟨hclosing, hclosed⟩
      split at h
      · have hrise : Change sizes P c { c with writers := c.writers.eraseIdx j } := .rise j
        have hroom : MakesRoom sizes P { c with writers := c.writers.eraseIdx j }
            ({ c with writers := c.writers.eraseIdx j }.resume env.rotated w.wait) := by
          cases hwait : w.wait with
          | imm =>
              apply makesRoom_waitImm
              · exact hclosed
              · exact hnone
          | l0 =>
              apply makesRoom_stallL0
              · exact hclosed
              · exact fun h => hl0 w hw hwait ⟨h.healthy, h.stall, h.full⟩
        exact hrise.one.trans (changes_proceed hclosing hclosed hroom h)
      · cases h
  · cases h

/-!
## The background
-/

/-- An accepted edit was checked, and a refused one leaves the versions as they are. -/
theorem apply_cases (c : Core) (e : VersionEdit) (logged : Logged) :
    (exists v next vsErr, c.vsErr = false ∧ c.versionSet.check e = .ok v ∧ c.nextFileNum ≤ next ∧
      c.apply e logged = ({ c with
        version := v
        logNumber := e.logNumber.getD c.logNumber
        lastSeq := e.lastSeq.getD c.lastSeq
        diskSeq := e.lastSeq.getD c.lastSeq
        nextFileNum := next
        vsErr := vsErr }, true)) ∨
    c.apply e logged = ({ c with vsErr := true }, false) := by
  unfold apply
  split
  · next v hvs hcheck =>
      exact Or.inl ⟨v, c.nextFileNum, c.vsErr, hvs, hcheck, Nat.le_refl _, rfl⟩
  · next v ok hvs hcheck =>
      exact Or.inl ⟨v, c.nextFileNum + 1, !ok, hvs, hcheck, Nat.le_succ _, rfl⟩
  · exact Or.inr rfl

theorem applyEdit_of_check {e : VersionEdit} {v : Version} (h : c.versionSet.check e = .ok v)
    (hlog : e.logNumber = none) (hseq : e.lastSeq = none) : applyEdit c.version e = .ok v := by
  unfold VersionSet.check at h
  rw [hlog, hseq] at h
  simp only [Option.getD_none, Nat.lt_irrefl, if_false] at h
  exact mapError_eq_ok.mp h

theorem changes_flushImm (hidle : c.Idle) {j : Nat} {event : FlushEvent}
    (h : c.flushImm sizes j event = .ok c') : Changes sizes P c c' := by
  unfold flushImm at h
  split at h
  · next hj =>
      cases himm : c.imm with
      | none =>
          rw [himm] at h
          cases h
      | some imm =>
          rw [himm] at h
          cases h
          rw [← himm]
          exact (Change.flushStart j imm hj himm).one
  · next cap hj =>
      cases h
      exact (Change.flushWrite j cap hj).one
  · next cap hj =>
      cases h
      exact (Change.flushFail j cap .writing c.vsErr hj (by decide)).one
  · next cap logged hj =>
      rcases apply_cases c (flushEdit sizes cap) logged with
        ⟨v, next, vsErr, _, hcheck, hnext, happly⟩ | happly
      · rw [happly] at h
        cases h
        rw [broadcast_maybeScheduleCompaction]
        have hclosed := hidle.open_of_flusher (List.mem_of_getElem? hj)
        exact (Change.flushApply j cap v next vsErr hj hcheck hnext).one.trans
          (changes_maybeScheduleCompaction hclosed)
      · rw [happly] at h
        cases h
        exact (Change.flushFail j cap .written true hj (by decide)).one
  · next cap pruned hj =>
      cases h
      exact (Change.flushFailed j cap hj).one
  · next cap pruned hj =>
      cases h
      exact (Change.flushDone j cap pruned hj).one
  · cases h

theorem changes_compact (hidle : c.Idle) {event : CompactEvent}
    (h : c.compact sizes event = .ok c') : Changes sizes P c c' := by
  unfold compact at h
  split at h
  · cases h
  · next k hk =>
      split at h
      · next nums hstage =>
          cases h
          exact (Change.compactCreate k nums hk hstage).one
      · next nums hstage =>
          split at h
          · cases h
            exact (Change.compactFail k c.vsErr hk).one
          · next outs houts =>
              split at h
              · next hnums =>
                  cases h
                  exact (Change.compactMerge k nums outs hk hstage houts hnums).one
              · cases h
      · cases h
        exact (Change.compactFail k c.vsErr hk).one
      · next outs logged hstage =>
          rcases apply_cases c (k.c.edit sizes.file outs) logged with
            ⟨v, next, vsErr, _, hcheck, hnext, happly⟩ | happly
          · rw [happly] at h
            cases h
            apply Change.one
            apply Change.compactApply k outs v next vsErr hk hstage _ hnext
            exact applyEdit_of_check hcheck rfl rfl
          · rw [happly] at h
            cases h
            exact (Change.compactFail k true hk).one
      · next failed err hstage =>
          have hbgErr : c.bgErr = true -> (c.bgErr || failed || err) = true := by
            intro hbgErr
            rw [hbgErr, Bool.true_or, Bool.true_or]
          have hfinish : Change sizes P c _ := .compactFinish k _ hk hbgErr
          dsimp only at h
          split at h
          · cases h
            exact hfinish.one
          · cases h
            rw [broadcast_maybeScheduleCompaction]
            exact hfinish.one.trans
              (changes_maybeScheduleCompaction (hidle.open_of_compacting hk))
      · cases h

/-!
## Checkpoints, Close and Open
-/

theorem sealAndFlush_checkpointing (c : Core) (calls : List Checkpointing) :
    ({ c with checkpointing := calls }.sealAndFlush true).1 =
      { (c.sealAndFlush true).1 with checkpointing := calls } := by
  rw [sealAndFlush_true, sealAndFlush_true]

theorem changes_checkpointFrom (hnone : P none) {j : Nat} {k : Checkpointing}
    (hj : c.checkpointing[j]? = some k) (rotated : Bool)
    (fault : CaptureStep -> Bool) :
    Changes sizes P c
      ({ c with checkpointing := c.checkpointing.eraseIdx j }.checkpointFrom k rotated fault) := by
  have hfailed : Changes sizes P c
      ({ c with checkpointing := c.checkpointing.eraseIdx j }.returns k false) :=
    (Change.checkpointFailed j k hj).one
  unfold checkpointFrom
  split
  · split
    · exact hfailed
    · exact (Change.checkpointWait j k hj).one
  · next hdrained =>
      simp only [ne_eq, not_or, not_not, not_and, Bool.not_eq_true] at hdrained
      split
      · exact hfailed
      · next hhealthy =>
          simp only [not_or, Bool.not_eq_true] at hhealthy
          split
          · next hseal =>
              simp only [Bool.not_eq_true] at hseal
              have himm : c.imm = none := by
                rw [← Option.not_isSome_iff_eq_none, Bool.not_eq_true]
                by_contra hsome
                exact hdrained.2.2 ((Bool.not_eq_false _).mp hsome) hseal.left
              rcases sealAndFlush_cases { c with checkpointing := c.checkpointing.eraseIdx j }
                rotated with h | h
              · rw [h, sealAndFlush_checkpointing]
                exact (Change.checkpointSeal j k hj hhealthy.left himm hseal.right).one
              · rw [h]
                have hseal : Change sizes P c { c with bgErr := true, immBound := 0 } :=
                  .sealFailed (himm ▸ hnone)
                exact hseal.one.tail (.checkpointFailed j k hj)
          · next hfirst =>
              simp only [Bool.not_eq_true, not_and, Nat.not_lt, Nat.le_zero] at hfirst
              unfold capture
              split
              · exact hfailed
              · next hdst =>
                  simp only [not_or, Option.not_isSome_iff_eq_none] at hdst
                  cases hfill : fill { c with checkpointing := c.checkpointing.eraseIdx j }
                      k.before fault with
                  | none => exact hfailed
                  | some made =>
                      apply Change.one
                      apply Change.capture j k fault made hj hdrained.1 _ hhealthy.2.2 _ hdst.right
                        hfill
                      · rw [← Option.not_isSome_iff_eq_none, hdrained.2.1]
                        exact Bool.false_ne_true
                      · intro hsecond
                        refine ⟨?_, hfirst hsecond⟩
                        rw [← Option.not_isSome_iff_eq_none]
                        exact fun hsome => hdrained.2.2 hsome hsecond

theorem changes_checkpoint (hnone : P none) {dst : Nat} {rotated : Bool}
    {fault : CaptureStep -> Bool} (h : c.checkpoint dst rotated fault = .ok c') :
    Changes sizes P c c' := by
  unfold checkpoint at h
  split at h
  · cases h
  · next hopen =>
    simp only [not_or, Bool.not_eq_true] at hopen
    cases h
    have hcall : Change sizes P c _ := .checkpointCall dst hopen.right hopen.left
    apply hcall.one.trans
    let k : Checkpointing := { dst := dst, before := c.committed.length, awake := true }
    have hlast : (c.checkpointing ++ [k])[c.checkpointing.length]? = some k := by
      simp
    have hfrom := @changes_checkpointFrom sizes P { c with checkpointing := c.checkpointing ++ [k] }
      hnone c.checkpointing.length k hlast rotated fault
    have herase : (c.checkpointing ++ [k]).eraseIdx c.checkpointing.length = c.checkpointing := by
      rw [List.eraseIdx_append_of_length_le (Nat.le_refl _), Nat.sub_self]
      exact List.append_nil _
    rw [herase] at hfrom
    exact hfrom

theorem changes_closeDrained (hnone : P none) {rotated : Bool}
    (h : c.closeDrained rotated = .ok c') : Changes sizes P c c' := by
  unfold closeDrained at h
  split at h
  · cases h
  · next hdrained =>
      simp only [ne_eq, not_or, not_not, not_and, Bool.not_eq_true] at hdrained
      rcases hdrained with ⟨hclosed, hclosing, hflushers, hcompacting, himm⟩
      rw [Bool.not_eq_false] at hclosing
      have hcompacting' : c.compacting = none := by
        rw [← Option.not_isSome_iff_eq_none, hcompacting]
        exact Bool.false_ne_true
      have himm' : c.bgErr = false -> c.imm = none := by
        intro hbgErr
        rw [← Option.not_isSome_iff_eq_none]
        exact fun hsome => himm hsome hbgErr
      split at h
      · next hseal =>
          simp only [Bool.not_eq_true] at hseal
          have hnone' : P c.imm := by
            rw [himm' hseal.left]
            exact hnone
          rcases sealAndFlush_cases c rotated with heq | heq
          · rw [heq] at h
            cases h
            exact (Change.sealed hnone' hclosed (Or.inr hseal.right)).one
          · rw [heq] at h
            cases h
            have hfailed : Change sizes P c _ := .sealFailed hnone'
            exact hfailed.one.tail (.closed hclosing hflushers hcompacting' (Or.inl rfl))
      · next hdone =>
          cases h
          apply Change.one
          apply Change.closed hclosing hflushers hcompacting'
          cases hbgErr : c.bgErr with
          | true => exact Or.inl rfl
          | false =>
              simp only [hbgErr, Bool.not_eq_true, true_and, Nat.not_lt, Nat.le_zero] at hdone
              exact Or.inr ⟨himm' hbgErr, hdone⟩

theorem changes_close (h : c.close = .ok c') : Changes sizes P c c' := by
  unfold close at h
  split at h
  · cases h
  · next hcond =>
      simp only [ne_eq, not_or, not_not] at hcond
      cases h
      exact (Change.closing hcond.2.2.1 hcond.2.2.2).one

theorem changes_wakeCheckpoint (hnone : P none) {j : Nat} {rotated : Bool}
    {fault : CaptureStep -> Bool} (h : c.wakeCheckpoint j rotated fault = .ok c') :
    Changes sizes P c c' := by
  unfold wakeCheckpoint at h
  split at h
  · next k hj =>
      split at h
      · cases h
        exact changes_checkpointFrom hnone hj rotated fault
      · cases h
  · cases h

structure Reopens (c : Core) (disableWAL : Bool) (height : Nat -> Fin maxHeight)
    (replayed : MemTable × Nat) : Prop where
  closed : c.closed = true
  drained : disableWAL = true -> c.unflushed.flatMap Prod.snd = []
  replay : replayBatches height (c.unflushed.flatMap Prod.snd) ({ id := c.mems }, c.diskSeq) =
    .ok replayed

theorem openDb_cases {o : Options} {disableWAL disableCompaction : Bool}
    {height : Nat -> Fin maxHeight}
    (h : c.openDb o disableWAL disableCompaction height = .ok c') :
    (c.closed = true ∧ c' = { c with segments := c.unflushed }) ∨
      exists replayed, c.Reopens disableWAL height replayed ∧
        Changes sizes P (c.reopened o disableWAL c.unflushed replayed) c' := by
  unfold openDb at h
  dsimp only at h
  split at h
  · cases h
  · next hclosed =>
      simp only [not_not] at hclosed
      split at h
      · cases h
        exact Or.inl ⟨hclosed, rfl⟩
      · next hwal =>
          rcases bind_eq_ok.mp h with ⟨replayed, hreplay, h⟩
          refine Or.inr ⟨replayed, ⟨hclosed, ?_, hreplay⟩, ?_⟩
          · intro hdisabled
            by_contra hne
            exact hwal ⟨hdisabled, hne⟩
          · cases h
            split
            · exact .refl
            · exact changes_maybeScheduleCompaction rfl

structure Allowed (P : Option MemTable -> Prop) (c : Core) (a : CoreAction) : Prop where
  drained : P none
  wake : forall j env w, a = .wake j env -> c.writers[j]? = some w -> w.wait = .l0 ->
    c.SealsFromL0 -> P c.imm

/-- Every step but `Open` is made of changes. -/
theorem changes_exec (hidle : c.Idle) {a : CoreAction} (hP : Allowed P c a)
    (h : c.exec sizes a = .ok c') :
    Changes sizes P c c' ∨ exists o disableWAL disableCompaction height,
      a = .openDb o disableWAL disableCompaction height ∧
        c.openDb o disableWAL disableCompaction height = .ok c' := by
  cases a with
  | openDb o disableWAL disableCompaction height =>
      exact Or.inr ⟨o, disableWAL, disableCompaction, height, rfl, h⟩
  | write ops env => exact Or.inl (changes_write hP.drained h)
  | wake j env => exact Or.inl (changes_wake hidle hP.drained (fun w => hP.wake j env w rfl) h)
  | flushImm j event => exact Or.inl (changes_flushImm hidle h)
  | compact event => exact Or.inl (changes_compact hidle h)
  | checkpoint dst rotated fault => exact Or.inl (changes_checkpoint hP.drained h)
  | wakeCheckpoint j rotated fault => exact Or.inl (changes_wakeCheckpoint hP.drained h)
  | close => exact Or.inl (changes_close h)
  | closeDrained rotated => exact Or.inl (changes_closeDrained hP.drained h)

/-!
## Runs
-/

namespace Idle

theorem change (h : c.Idle) (hchange : Change sizes P c c') : c'.Idle := by
  have hopen : forall {c' : Core}, c.closing = false -> c.closed = false ->
      c'.closing = c.closing -> c'.closed = c.closed -> c'.Idle := by
    intro c' hclosing hclosed hclosing' hclosed'
    constructor
    · intro h'
      rw [hclosing', hclosing] at h'
      cases h'
    · intro h'
      rw [hclosed', hclosed] at h'
      cases h'
  have hworking : forall {c' : Core}, c.closed = false -> c'.writers = c.writers ->
      c'.checkpointing = c.checkpointing -> c'.closing = c.closing -> c'.closed = c.closed ->
      c'.Idle := by
    intro c' hclosed hwriters hcheckpointing hclosing' hclosed'
    constructor
    · rw [hclosing', hwriters, hcheckpointing]
      exact h.closing
    · intro h'
      rw [hclosed', hclosed] at h'
      cases h'
  have hwoken : forall {c' : Core}, c.closed = false ->
      c'.writers = c.broadcast.writers -> c'.checkpointing = c.broadcast.checkpointing ->
      c'.closing = c.closing -> c'.closed = c.closed -> c'.Idle := by
    intro c' hclosed hwriters hcheckpointing hclosing' hclosed'
    constructor
    · rw [hclosing', hwriters, hcheckpointing]
      intro hclosing
      show List.map _ c.writers = [] ∧ List.map _ c.checkpointing = []
      rw [(h.closing hclosing).left, (h.closing hclosing).right]
      exact ⟨rfl, rfl⟩
    · intro h'
      rw [hclosed', hclosed] at h'
      cases h'
  have hcalling : forall {j : Nat} {k : Checkpointing}, c.checkpointing[j]? = some k ->
      c.closing = false ∧ c.closed = false := by
    intro j k hj
    have hk := List.mem_of_getElem? hj
    constructor
    · rw [← Bool.not_eq_true]
      intro hclosing
      rw [(h.closing hclosing).right] at hk
      cases hk
    · rw [← Bool.not_eq_true]
      intro hclosed
      rw [(h.closed hclosed).2.1] at hk
      cases hk
  cases hchange with
  | sleep w hclosing hclosed _ _ _ => exact hopen hclosing hclosed rfl rfl
  | rise j =>
      constructor
      · intro hclosing
        show c.writers.eraseIdx j = [] ∧ _
        rw [(h.closing hclosing).left]
        exact ⟨rfl, (h.closing hclosing).right⟩
      · intro hclosed
        show c.writers.eraseIdx j = [] ∧ _
        rw [(h.closed hclosed).left]
        exact ⟨rfl, (h.closed hclosed).right⟩
  | schedule k compactPtr hclosed _ _ => exact hworking hclosed rfl rfl rfl rfl
  | rotate id _ => exact { h with }
  | sealed _ hclosed _ =>
      rw [sealAndFlush_true]
      exact hworking hclosed rfl rfl rfl rfl
  | sealFailed _ | poison | stray _ _ _ _ =>
      exact { h with
        closed := fun hclosed => (h.closed hclosed).imp id fun h =>
          h.imp id fun h => h.imp id fun h => h.imp id fun _ => Or.inl rfl }
  | commit b height mem hclosed _ _ _ => exact hworking hclosed rfl rfl rfl rfl
  | flushStart j imm hj _ | flushWrite j cap hj | flushFail j cap stage _ hj _ =>
      exact hworking (h.open_of_flusher (List.mem_of_getElem? hj)) rfl rfl rfl rfl
  | flushApply j cap v next vsErr hj _ _ | flushFailed j cap hj | flushDone j cap pruned hj =>
      exact hwoken (h.open_of_flusher (List.mem_of_getElem? hj)) rfl rfl rfl rfl
  | compactCreate k nums hk _ | compactMerge k nums outs hk _ _ _ | compactFail k vsErr hk
  | compactApply k outs v next vsErr hk _ _ _ =>
      exact hworking (h.open_of_compacting hk) rfl rfl rfl rfl
  | compactFinish k bgErr hk _ => exact hwoken (h.open_of_compacting hk) rfl rfl rfl rfl
  | checkpointCall dst hclosing hclosed => exact hopen hclosing hclosed rfl rfl
  | checkpointWait j k hj | checkpointFailed j k hj =>
      exact hopen (hcalling hj).left (hcalling hj).right rfl rfl
  | checkpointSeal j k hj _ _ _ =>
      rw [sealAndFlush_true]
      exact hopen (hcalling hj).left (hcalling hj).right rfl rfl
  | capture j k fault made hj _ _ _ _ _ _ =>
      exact hopen (hcalling hj).left (hcalling hj).right rfl rfl
  | closing hwriters hcheckpointing =>
      exact { h with closing := fun _ => ⟨hwriters, hcheckpointing⟩ }
  | closed hclosing hflushers hcompacting hdrained =>
      rcases h.closing hclosing with ⟨hwriters, hcheckpointing⟩
      exact { h with
        closed := fun _ => ⟨hwriters, hcheckpointing, hflushers, hcompacting, hdrained⟩ }

theorem start : Idle {} where
  closing := fun h => by cases h
  closed := fun _ => ⟨rfl, rfl, rfl, rfl, Or.inr ⟨rfl, rfl⟩⟩

theorem reopened (c : Core) (o : Options) (disableWAL : Bool)
    (segments : List (Nat × List Batch)) (replayed : MemTable × Nat) :
    (c.reopened o disableWAL segments replayed).Idle where
  closing := fun h => by cases h
  closed := fun h => by cases h

end Idle

theorem Changes.invariant {I : Core -> Prop}
    (hchange : forall c c', I c -> Change sizes P c c' -> I c') (h : Changes sizes P c c')
    (hc : I c) : I c' := by
  induction h with
  | refl => exact hc
  | tail _ hstep ih => exact hchange _ _ ih hstep

/-- An invariant holds along a run: the changes keep it, and so does `Open`. -/
theorem invariant_of_changes {I : Core -> Prop} {guard : Core -> CoreAction -> Prop}
    (hchange : forall c c', c.Idle -> I c -> Change sizes P c c' -> I c')
    (hrefused : forall c, I c -> c.closed = true -> I { c with segments := c.unflushed })
    (hreopen : forall c o disableWAL disableCompaction height replayed, c.Idle -> I c ->
      guard c (.openDb o disableWAL disableCompaction height) ->
      c.Reopens disableWAL height replayed -> I (c.reopened o disableWAL c.unflushed replayed))
    (hguard : forall c a, c.Idle -> I c -> guard c a -> Allowed P c a)
    (h : Reach (Core.exec sizes) guard c c') (hidle : c.Idle) (hc : I c) : c'.Idle ∧ I c' := by
  apply h.invariant _ ⟨hidle, hc⟩
  rintro c a c' ⟨hidle, hI⟩ ha hexec
  have hboth : forall c c' : Core, c.Idle ∧ I c -> Change sizes P c c' -> c'.Idle ∧ I c' :=
    fun c c' hc hstep => ⟨hc.left.change hstep, hchange c c' hc.left hc.right hstep⟩
  rcases changes_exec hidle (hguard c a hidle hI ha) hexec with hchanges |
    ⟨o, disableWAL, disableCompaction, height, rfl, hopen⟩
  · exact hchanges.invariant hboth ⟨hidle, hI⟩
  · rcases @openDb_cases sizes P c c' o disableWAL disableCompaction height hopen with
      ⟨hclosed, rfl⟩ | ⟨replayed, hreopens, hchanges⟩
    · exact ⟨{ hidle with }, hrefused c hI hclosed⟩
    · apply hchanges.invariant hboth
      exact ⟨Idle.reopened c o disableWAL _ replayed,
        hreopen c o disableWAL disableCompaction height replayed hidle hI ha hreopens⟩

end Core

end Engine
end Basalt
