import Basalt.Engine.Logs

/-!
# The runs of the engine

Every change of an open engine, and every opening after a clean `Close`, keeps the
tables in order, the three parts of the history together and the log in step with
the manifest.
-/

namespace Basalt
namespace Engine

open Lib Base Std Manifest Wal Compaction

namespace Core

structure Sound (c : Core) : Prop where
  flow : c.Flow
  tables : c.Tables
  parts : exists fb sb mb, c.Cut fb sb mb ∧ c.Logs sb mb

variable {sizes : Sizes} {c c' : Core} {fb sb mb : List Batch}

theorem of_check_flush {cap : Captured} {v : Version}
    (h : c.versionSet.check (flushEdit sizes cap) = .ok v) :
    c.logNumber ≤ cap.bound ∧ c.lastSeq ≤ cap.sealSeq ∧
      applyEdit c.version (flushEdit sizes cap) = .ok v := by
  unfold VersionSet.check at h
  split at h
  · cases h
  · next hlog =>
      split at h
      · cases h
      · next hseq => exact ⟨Nat.not_lt.mp hlog, Nat.not_lt.mp hseq, mapError_eq_ok.mp h⟩

theorem received_flush (hflow : c.Flow) (htables : c.Tables) (hcut : c.Cut fb sb mb)
    {cap : Captured} (hcap : .running cap .written ∈ c.flushers) (sizes : Sizes) :
    exists v, applyEdit c.version (flushEdit sizes cap) = .ok v ∧
      Received c.version (cap.output.fileMeta 0 sizes.file) v ∧ Layered v c.sources := by
  rcases hflow.captured cap .written hcap nofun with ⟨himm, _, _⟩
  have hflush := htables.flushing cap .written hcap nofun
  have hwritten := hflush.written rfl
  have hholds : Holds c.sources (cap.output.fileMeta 0 sizes.file) :=
    hcut.holds_output himm hwritten
  have hedit : exists v, applyEdit c.version (flushEdit sizes cap) = .ok v ∧
      Received c.version (cap.output.fileMeta 0 sizes.file) v :=
    applyEdit_flush htables.layered.wellFormed rfl hflush.num.free (checkBounds_of_holds hholds)
      rfl rfl
  rcases hedit with ⟨v, hok, hreceived⟩
  refine ⟨v, hok, hreceived, ?_⟩
  exact hreceived.layered htables.layered (htables.layered.wellFormed.applyEdit hok) rfl hholds
    hflush.young (hcut.newer himm hwritten)

namespace Sound

theorem flushApply (h : c.Sound) (hidle : c.Idle) {j : Nat} {cap : Captured} {v : Version}
    {next : Nat} {vsErr : Bool} (hj : c.flushers[j]? = some (.running cap .written))
    (hcheck : c.versionSet.check (flushEdit sizes cap) = .ok v) (hnext : c.nextFileNum ≤ next)
    (hflow : Flow { c with
      imm := none
      flushed := c.flushed ++ [cap]
      flushers := c.flushers.set j (.running cap .pruning) }) :
    Sound ({ c with
      version := v
      logNumber := cap.bound
      lastSeq := cap.sealSeq
      diskSeq := cap.sealSeq
      nextFileNum := next
      vsErr := vsErr
      imm := none
      flushed := c.flushed ++ [cap]
      flushers := c.flushers.set j (.running cap .pruning) }.broadcast) := by
  have hcap := List.mem_of_getElem? hj
  have hclosed := hidle.open_of_flusher hcap
  rcases h.parts with ⟨fb, sb, mb, hcut, hlogs⟩
  rcases h.flow.captured cap .written hcap nofun with ⟨himm, hseq, hbound⟩
  rcases of_check_flush hcheck with ⟨hle, _, hedit⟩
  rcases received_flush h.flow h.tables hcut hcap sizes with ⟨v', hok, hreceived, hlayered⟩
  rw [hedit] at hok
  cases hok
  have hpruning : forall cap' stage,
      .running cap' stage ∈ c.flushers.set j (.running cap .pruning) -> stage = .pruning := by
    intro cap' stage hmem
    by_contra hne
    exact hflow.drained rfl _ hmem hne
  have hfs : forall cap', .running cap' .pruning ∈ c.flushers.set j (.running cap .pruning) ->
      .running cap' .pruning ∈ c.flushers ∨ cap' = cap := by
    intro cap' hmem
    rcases List.mem_or_eq_of_mem_set hmem with hmem | heq
    · exact Or.inl hmem
    · cases heq
      exact Or.inr rfl
  have hsome : c.imm.isSome := by
    rw [himm]
    rfl
  have htables := h.tables.flushApply hcap rfl hreceived hlayered hnext hpruning
  have hwritten := (h.tables.flushing cap .written hcap nofun).written rfl
  rw [hseq]
  exact {
    flow := { hflow with }
    tables := { htables with }
    parts := ⟨fb ++ sb, [], mb, { hcut.flush himm hreceived hwritten cap with },
      { hlogs.flush hclosed hsome hbound hle hfs with }⟩ }

/-- Every change keeps the engine sound. -/
theorem change (h : c.Sound) (hidle : c.Idle) (hchange : Change sizes Vacant c c') : c'.Sound := by
  have hflow := h.flow.change hchange
  have htables := h.tables
  rcases h.parts with ⟨fb, sb, mb, hcut, hlogs⟩
  cases hchange with
  | sleep w _ _ _ _ _ | rise j =>
      exact ⟨hflow, { htables with }, fb, sb, mb, { hcut with }, { hlogs with }⟩
  | schedule k compactPtr _ _ hpick =>
      exact ⟨hflow, htables.schedule hpick, fb, sb, mb, { hcut with }, { hlogs with }⟩
  | rotate id hwal =>
      exact ⟨hflow, { htables with }, fb, sb, mb, { hcut with }, hlogs.rotate hwal⟩
  | sealed hnone hclosed hsize =>
      have hpos : 0 < c.mem.size := by
        have hlimit := h.flow.size
        lia
      have hsb := hcut.vacant hnone
      subst hsb
      refine ⟨hflow, ?_, fb, mb, [], hcut.sealed' hnone hpos, hlogs.sealed hclosed⟩
      rw [sealAndFlush_true]
      exact { htables.addFlusher with }
  | sealFailed hnone =>
      exact ⟨hflow, { htables with }, fb, sb, mb, { hcut with }, hlogs.sealFailed hnone⟩
  | poison => exact ⟨hflow, { htables with }, fb, sb, mb, { hcut with }, hlogs.poison⟩
  | stray id b hwal hbgErr =>
      exact ⟨hflow, { htables with }, fb, sb, mb, { hcut with }, hlogs.stray hwal hbgErr b⟩
  | commit b height mem hclosed hbgErr hbase hmem =>
      exact ⟨hflow, { htables with }, fb, sb, mb ++ [b], { hcut.commit hbase hmem with },
        { hlogs.commit hclosed hbgErr b with }⟩
  | flushStart j imm hj himm =>
      exact ⟨hflow, htables.flushStart j rfl, fb, sb, mb, { hcut with },
        { hlogs with pruning := hlogs.pruning_set j nofun }⟩
  | flushWrite j cap hj =>
      have hcap := List.mem_of_getElem? hj
      have hfree := (htables.flushing cap .writing hcap nofun).num.free
      have hlive : forall n, n ∈ c.version.live ->
          written c.sources [cap.output] n = c.sources n := by
        intro n hn
        apply written_of_not_mem
        intro hmem
        rw [List.mem_singleton.mp hmem] at hn
        exact hfree hn
      exact ⟨hflow, htables.flushWrite h.flow hj, fb, sb, mb, { hcut.sources hlive with },
        { hlogs with pruning := hlogs.pruning_set j nofun }⟩
  | flushFail j cap stage vsErr hj hstage =>
      exact ⟨hflow, { htables.flushFail hj hstage with }, fb, sb, mb, { hcut with },
        { hlogs with pruning := hlogs.pruning_set j nofun }⟩
  | flushApply j cap v next vsErr hj hcheck hnext =>
      exact h.flushApply hidle hj hcheck hnext { hflow with }
  | flushFailed j cap hj =>
      exact ⟨hflow, { htables.eraseFlusher j with }, fb, sb, mb, { hcut with },
        { hlogs.poison with
          pruning := fun cap hmem => hlogs.pruning cap (List.mem_of_mem_eraseIdx hmem) }⟩
  | flushDone j cap pruned hj =>
      exact ⟨hflow, { htables.eraseFlusher j with }, fb, sb, mb, { hcut with },
        { hlogs.flushDone (hidle.open_of_flusher (List.mem_of_getElem? hj)) hj pruned with }⟩
  | compactCreate k nums hk hstage =>
      exact ⟨hflow, htables.compactCreate hk hstage, fb, sb, mb, { hcut with }, { hlogs with }⟩
  | compactMerge k nums outs hk hstage houts hnums =>
      have hworking := htables.merging k nums hk hstage
      have hlive : forall n, n ∈ c.version.live -> written c.sources outs n = c.sources n := by
        intro n hn
        apply written_of_not_mem
        rw [hnums]
        exact fun hmem => (hworking.fresh n hmem).free hn
      exact ⟨hflow, htables.compactMerge hk hstage houts hnums, fb, sb, mb,
        { hcut.sources hlive with }, { hlogs with }⟩
  | compactFail k vsErr hk =>
      refine ⟨hflow, { htables.unwind (k := some { k with stage := .finishing true }) ?_ with },
        fb, sb, mb, { hcut with }, { hlogs with }⟩
      intro k' hk'
      cases hk'
      exact ⟨true, rfl⟩
  | compactApply k outs v next vsErr hk hstage hcheck hnext =>
      rcases htables.compactApply hk hstage hcheck hnext with ⟨hpres, hsubset, hinstalled⟩
      exact ⟨hflow, { hinstalled with }, fb, sb, mb, { hcut.compactApply hpres hsubset with },
        { hlogs with }⟩
  | compactFinish k bgErr hk hbgErr =>
      have hopen := hidle.open_of_compacting hk
      have hended := htables.unwind (k := none) nofun
      have hhealthy : bgErr = false -> c.bgErr = false := by
        intro hfalse
        rw [← Bool.not_eq_true]
        intro htrue
        rw [hbgErr htrue] at hfalse
        cases hfalse
      refine ⟨hflow, { hended with }, fb, sb, mb, { hcut with },
        { hlogs with
          closed := fun hclosed => ?_
          unflushed := fun hsome => (hlogs.unflushed hsome).keep rfl hhealthy
          unsealed := fun hsome himm => (hlogs.unsealed hsome himm).keep rfl hhealthy }⟩
      rw [show c.closed = true from hclosed] at hopen
      cases hopen
  | checkpointCall dst _ _ | checkpointWait j k _ | checkpointFailed j k _ =>
      exact ⟨hflow, { htables with }, fb, sb, mb, { hcut with }, { hlogs with }⟩
  | checkpointSeal j k _ hclosed hnone hsize =>
      have hsb := hcut.vacant hnone
      subst hsb
      refine ⟨hflow, ?_, fb, mb, [], { hcut.sealed' hnone hsize with },
        { hlogs.sealed hclosed with }⟩
      rw [sealAndFlush_true]
      exact { htables.addFlusher with }
  | capture j k fault made _ _ _ _ _ _ _ | closing _ _ =>
      exact ⟨hflow, { htables with }, fb, sb, mb, { hcut with }, { hlogs with }⟩
  | closed hclosing hflushers hcompacting hdrained =>
      exact ⟨hflow, { htables with }, fb, sb, mb, { hcut with }, { hlogs.close hcut hdrained with }⟩

end Sound

/-!
## Opening
-/

theorem replayBatches_of_nil {height : Nat -> Fin maxHeight} {bs : List Batch}
    (hnil : opsOf bs = []) (r : MemTable × Nat) : replayBatches height bs r = .ok r := by
  induction bs with
  | nil => rfl
  | cons b bs ih =>
      have hops : b.ops = [] ∧ opsOf bs = [] := List.append_eq_nil_iff.mp hnil
      rw [replayBatches, hops.left]
      exact ih hops.right

/-- What a clean `Close` leaves behind: everything is in the tables. -/
structure Drained (c : Core) (fb mb : List Batch) : Prop where
  cut : c.Cut fb [] mb
  logs : c.Logs [] mb
  empty : opsOf mb = []
  imm : c.imm = none
  disk : c.diskSeq = c.seq
  log : opsOf (c.unflushed.flatMap Prod.snd) = []

theorem Sound.drained (h : c.Sound) (hidle : c.Idle) (hclosed : c.closed = true)
    (hclean : c.bgErr = false) : exists fb mb, c.Drained fb mb := by
  rcases h.parts with ⟨fb, sb, mb, hcut, hlogs⟩
  rcases (hidle.closed hclosed).2.2.2.2 with hbad | ⟨himm, hsize⟩
  · rw [hclean] at hbad
    cases hbad
  · obtain rfl := hcut.vacant himm
    have hempty : opsOf mb = [] := hcut.mem.empty.mp hsize
    refine ⟨fb, mb, hcut, hlogs, hempty, himm, ?_, hlogs.closed hclosed hclean⟩
    have hlen := hcut.length_eq
    have hfloor := hcut.floor
    have hdisk := hcut.disk
    have hceiling := hcut.ceiling
    rw [hempty] at hlen
    simp only [opsOf, List.flatMap_nil, List.length_nil] at hlen hfloor
    lia

theorem Drained.replayed {disableWAL : Bool} {height : Nat -> Fin maxHeight}
    {replayed : MemTable × Nat} (h : c.Drained fb mb)
    (hopen : c.Reopens disableWAL height replayed) :
    replayed = ({ id := c.mems }, c.diskSeq) := by
  have hreplay := hopen.replay
  rw [replayBatches_of_nil h.log] at hreplay
  exact (Except.ok.inj hreplay).symm

theorem Drained.cut_reopened (h : c.Drained fb mb) (o : Options) (disableWAL : Bool) :
    Cut (c.reopened o disableWAL c.unflushed ({ id := c.mems }, c.diskSeq)) fb [] mb :=
  { h.cut with
    seq := by
      show c.diskSeq = _
      rw [h.disk]
      exact h.cut.seq
    bounded := by
      show c.diskSeq ≤ maxSeq
      rw [h.disk]
      exact h.cut.bounded
    mem := by
      rw [h.empty]
      exact MemTable.HoldsOps.new _ _
    imm := fun _ hbad => by cases hbad
    vacant := fun _ => rfl
    disk := Nat.le_refl c.diskSeq
    ceiling := Nat.le_refl c.diskSeq
    sealed := fun hbad => by cases hbad
    stamped := fun hbad => absurd rfl hbad }

theorem Tables.reopened (h : c.Tables) (o : Options) (disableWAL : Bool)
    (segments : List (Nat × List Batch)) (replayed : MemTable × Nat) :
    (c.reopened o disableWAL segments replayed).Tables where
  layered := h.layered
  numbers := fun n hn => Nat.lt_succ_of_lt (h.numbers n hn)
  flushing := fun _ _ hbad => by cases hbad
  merging := fun _ _ hbad => by cases hbad
  merged := fun _ _ hbad => by cases hbad

def nextSegment (segments : List (Nat × List Batch)) : Nat :=
  (segments.getLast?).elim 1 fun s => s.1 + 1

theorem Rising.lt_nextSegment {segments : List (Nat × List Batch)} (h : Rising segments)
    {s : Nat × List Batch} (hs : s ∈ segments) : s.1 < nextSegment segments := by
  unfold nextSegment
  rcases List.eq_nil_or_concat segments with rfl | ⟨rest, last, rfl⟩
  · cases hs
  · rw [List.concat_eq_append] at h hs ⊢
    rw [List.getLast?_concat]
    rcases List.mem_append.mp hs with hs | hs
    · exact Nat.lt_succ_of_lt ((List.pairwise_append.mp h).right.right s hs _ List.mem_cons_self)
    · rw [List.mem_singleton.mp hs]
      exact Nat.lt_succ_self _

theorem Drained.logs_reopened (h : c.Drained fb mb) (o : Options) (disableWAL : Bool) :
    Logs (c.reopened o disableWAL c.unflushed ({ id := c.mems }, c.diskSeq)) [] mb := by
  have hpruned := h.logs.prune (Nat.le_refl c.logNumber)
  have hlog : opsOf (logged c.unflushed c.logNumber) = [] := by
    have hsame : logged c.unflushed c.logNumber = c.unflushed.flatMap Prod.snd :=
      logged_prune (Nat.le_refl c.logNumber)
    rw [hsame]
    exact h.log
  cases disableWAL with
  | true =>
      exact {
        rising := hpruned.rising
        anchored := hpruned.anchored
        pruning := fun _ hbad => by cases hbad
        off := fun hbad => by cases hbad
        closed := fun hbad => by cases hbad
        ends := fun _ hid => by cases hid
        unflushed := fun hsome => by cases hsome
        bound := fun _ hid => by cases hid
        unsealed := fun hsome => by cases hsome
        disabled := fun _ _ => ⟨hlog, fun hbad => by cases hbad⟩ }
  | false =>
      have hlt : forall s, s ∈ c.unflushed -> s.1 < nextSegment c.unflushed :=
        fun s hs => hpruned.rising.lt_nextSegment hs
      have hle : c.logNumber ≤ nextSegment c.unflushed := by
        rcases hpruned.anchored with hzero | ⟨s, hs, hle⟩
        · have hzero : c.logNumber = 0 := hzero
          lia
        · exact Nat.le_trans hle (Nat.le_of_lt (hlt s hs))
      exact {
        rising := hpruned.rising.rotate hlt
        anchored := hpruned.anchored.imp id
          fun ⟨s, hs, hle⟩ => ⟨s, List.mem_append_left _ hs, hle⟩
        pruning := fun _ hbad => by cases hbad
        off := fun hbad => by cases hbad
        closed := fun hbad => by cases hbad
        ends := fun id hid => by
          cases hid
          exact ⟨Ends.rotate _ _, hle⟩
        unflushed := fun _ => by
          apply Records.of_eq
          show opsOf (logged (c.unflushed ++ [(nextSegment c.unflushed, [])]) c.logNumber) = _
          rw [logged_rotate, hlog, h.empty]
          rfl
        bound := fun _ _ hbad => by cases hbad
        unsealed := fun _ hbad => by cases hbad
        disabled := fun _ hbad => by cases hbad }

/-- An engine that was closed without an error is sound when it is opened again. -/
theorem Sound.reopened (h : c.Sound) (hidle : c.Idle) (hclean : c.bgErr = false) {o : Options}
    {disableWAL : Bool} {height : Nat -> Fin maxHeight} {replayed : MemTable × Nat}
    (hopen : c.Reopens disableWAL height replayed) :
    (c.reopened o disableWAL c.unflushed replayed).Sound := by
  rcases h.drained hidle hopen.closed hclean with ⟨fb, mb, hdrained⟩
  rw [hdrained.replayed hopen]
  exact {
    flow := Flow.reopened c o disableWAL _ _
    tables := h.tables.reopened o disableWAL _ _
    parts := ⟨fb, [], mb, hdrained.cut_reopened o disableWAL, hdrained.logs_reopened o disableWAL⟩ }

theorem Sound.refused (h : c.Sound) : Sound { c with segments := c.unflushed } := by
  rcases h.parts with ⟨fb, sb, mb, hcut, hlogs⟩
  have hflow := h.flow
  have htables := h.tables
  exact ⟨{ hflow with }, { htables with }, fb, sb, mb, { hcut with },
    hlogs.prune (Nat.le_refl c.logNumber)⟩

end Core

end Engine
end Basalt
