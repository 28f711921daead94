import Basalt.Cluster.Reopen

/-!
# The stages of a group

What is known of a group in each stage of its loop, and that every step keeps
it.  A crash leaves files that fit in every stage but those in which an engine
is being replaced.
-/

namespace Basalt
namespace Cluster

open Lib Raft Engine

structure BatchOf (n : Node) (rd : Ready) : Prop where
  hardState : rd.hardState = if n.hardState ≠ n.prevHard then some n.hardState else none
  entries : rd.entries = n.log.entries.drop (n.stabled - n.log.snapIndex)
  committed : n.nextCommitted = .ok rd.committedEntries
  inRange : forall e, e ∈ rd.committedEntries -> e.InRange

def savedState (rec : Recovered) (log : RaftLog) (rd : Ready) : Recovered :=
  { rec with
    hardState := rd.hardState.getD rec.hardState
    entries := log.entries }

/-- Some of the records of a batch are written, and none of them is synced. -/
structure Saving (d : GroupDisk) (g : Group) (rd : Ready) (records : List Bytes)
    (rec : Recovered) : Prop where
  written : exists file done, Describes file rec ∧
    d.state = file ++ Wal.framing.frames done ∧ d.synced = file.length ∧
    (forall p, p ∈ done -> Wal.framing.valid p) ∧
    done ++ records = readyPayloads g.lastIndex rd
  leads : Leads (Partly rec g.node.log g.node.stabled rd.hardState)
    (savedState rec g.node.log rd) rec (readyPayloads g.lastIndex rd)
  stored : Stored g.node g.lastIndex rec
  engines : Engines d.db g.sm g.imm rec.snapIndex
  applied : g.sm.applied = g.node.log.applied
  batch : BatchOf g.node rd

/-- A batch is saved, and some of its committed entries are applied. -/
structure Applying (d : GroupDisk) (g : Group) (rd : Ready) (rest : List Entry)
    (rec : Recovered) : Prop where
  replayed : replay d.state = .ok rec
  synced : d.synced = d.state.length
  backed : Backed g.node.log g.node.stabled rec
  entries : rec.entries = g.node.log.entries
  last : g.lastIndex = rec.snapIndex + rec.entries.length
  commit : rec.hardState.commit = g.node.log.committed
  prev : (rd.hardState.getD g.node.prevHard).commit = g.node.log.committed
  engines : Engines d.db g.sm g.imm rec.snapIndex
  batch : BatchOf g.node rd
  progress : exists done, rd.committedEntries = done ++ rest ∧
    g.sm.applied = g.node.log.applied + done.length

/-- What is known of a group in each of its stages. -/
def Live (d : GroupDisk) (g : Group) : Prop :=
  match g.stage with
  | .idle | .closing _ | .removeOld _ | .moveAway _ => exists rec, Settled d g rec
  | .saving rd records => exists rec, Saving d g rd records rec
  | .applying rd rest => exists rec, Applying d g rd rest rec
  | .checkpointing => exists rec, Settled d g rec ∧ g.node.stabled = g.node.log.lastIndex
  | .compacting => exists rec, Settled d g rec ∧ g.node.stabled = g.node.log.lastIndex ∧
      Engines d.db g.sm g.imm g.sm.applied
  | .moveIn _ => exists rec, replay d.state = .ok rec ∧ d.synced = d.state.length ∧
      Stored g.node g.lastIndex rec ∧ d.db = none
  | .cleanUp x | .rewriting x => exists rec, replay d.state = .ok rec ∧
      d.synced = d.state.length ∧ d.db = some x.machine.db
  | .reopening => Restorable d.db d.state ∧ d.synced = d.state.length

/-- What is known of the files of a group that runs, or does not. -/
def Sound (d : GroupDisk) : Option Group -> Prop
  | none => Restorable d.db d.state ∧ d.synced = d.state.length
  | some g => Live d g

section Stages

variable {cfg : GroupConfig} {d : GroupDisk} {g : Group} {rd : Ready} {rec : Recovered}

/-!
## Between batches
-/

theorem Settled.sound (h : Settled d g rec) : Sound d none :=
  ⟨h.restorable, h.synced⟩

theorem Settled.live (h : Settled d g rec) (hstage : g.stage = .idle) : Live d g := by
  rw [Live, hstage]
  exact ⟨rec, h⟩

theorem Settled.mapEngines (h : Settled d g rec) {db imm : Option Store}
    (hmap : forall low, Engines d.db g.sm g.imm low -> Engines db g.sm imm low) :
    Settled { d with db := db } { g with imm := imm } rec :=
  { h with engines := hmap _ h.engines }

theorem Settled.feed (h : Settled d g rec) {ev : Replica.Event} {node : Node}
    (hev : ev.Conforms g.node) (hfeed : Replica.feed g.node ev = .ok node) :
    Settled d { g with node := node } rec := by
  have hfollows := Replica.follows_feed hfeed
  have hstabled : node.stabled = g.node.stabled := hfollows.stabled
  have hprev : node.prevHard = g.node.prevHard := hfollows.prevHard
  have happlied : node.log.applied = g.node.log.applied := hfollows.base.applied
  have hstored : Stored node g.lastIndex rec := {
    backed := Replica.backed_feed h.stored.backed hev hfeed
    last := h.stored.last
    prev := by
      rw [hprev]
      exact h.stored.prev
    ahead := Nat.le_trans h.stored.ahead hfollows.committed
    stable := by
      rw [hstabled]
      exact h.stored.stable
    applied := by
      rw [happlied]
      exact h.stored.applied }
  exact { h with stored := hstored, applied := h.applied.trans happlied.symm }

theorem BatchOf.of_ready {n n' : Node} (h : n.ready = .ok (rd, n'))
    (hback : Backed n.log n.stabled rec) (hrange : n.InRange) :
    n' = { n with msgs := [] } ∧ BatchOf n rd := by
  rcases bind_eq_ok.mp h with ⟨ents, hents, h⟩
  rcases bind_eq_ok.mp h with ⟨committed, hcommitted, hpure⟩
  rw [hback.unstableEntries_eq] at hents
  cases hents
  cases hpure
  refine ⟨rfl, rfl, rfl, hcommitted, ?_⟩
  intro e he
  exact hrange.entries hback.numbered (hback.nextCommitted_le hcommitted he).left

theorem Settled.ready (h : Settled d g rec) (hstage : g.stage = .idle)
    (hallowed : g.node.hasReady = true -> g.node.InRange ∧ Wal.framing.Clean d.state) :
    Sound (g.ready d).1 (g.ready d).2 := by
  rw [Group.ready]
  split
  · next hready =>
      rcases hallowed hready with ⟨hrange, hclean⟩
      split
      · exact h.sound
      · next x hx =>
          rcases x with ⟨rd, n'⟩
          rcases BatchOf.of_ready hx h.stored.backed hrange with ⟨rfl, hbatch⟩
          have hents : forall e, e ∈ rd.entries -> e.InRange := by
            intro e he
            rw [hbatch.entries] at he
            exact hrange.entries h.stored.backed.numbered (List.mem_of_mem_drop he)
          have hhard : forall hs, rd.hardState = some hs -> hs.InRange := by
            intro hs hhs
            rw [hbatch.hardState] at hhs
            split at hhs
            · cases hhs
              exact hrange.hardState
            · cases hhs
          have hleads := leads_readyPayloads h.stored.backed h.stored.last hbatch.entries hents
            hhard
          refine ⟨rec, ?_, hleads, ?_, h.engines, h.applied, ?_⟩
          · refine ⟨d.state, [], ⟨hclean, h.replayed⟩, ?_, h.synced, ?_, rfl⟩
            · exact (List.append_nil _).symm
            · intro p hp
              cases hp
          · exact { h.stored with }
          · exact { hbatch with }
  · exact h.live hstage

/-!
## Saving
-/

theorem Saving.fits {records : List Bytes} {r : Recovered} (h : Saving d g rd records rec)
    (hpartly : Partly rec g.node.log g.node.stabled rd.hardState r) :
    HoldsMachine d.db r.snapIndex r.hardState.commit ∧
      r.hardState.commit ≤ r.snapIndex + r.entries.length := by
  rcases h.engines.holdsMachine with ⟨m, hm, hdb, hlow, hhigh⟩
  have happlied := h.applied
  have hle := h.stored.applied
  have hahead := h.stored.ahead
  have hstable := h.stored.stable
  have hsnap := hpartly.snapIndex
  have hstored := hpartly.stored
  rw [← hsnap] at hlow
  rcases hpartly.hardState with hsame | ⟨hents, hhard⟩
  · rw [hsame]
    exact ⟨⟨m, hm, hdb, hlow, by lia⟩, by lia⟩
  · have hcommit : r.hardState.commit = g.node.log.committed := by
      rw [h.batch.hardState] at hhard
      split at hhard
      · rw [← Option.some.inj hhard]
        rfl
      · cases hhard
    have hlast := g.node.log.lastIndex_eq
    have hbound := g.node.log.committed_le_lastIndex
    have hback := h.stored.backed.snapIndex_eq
    rw [hcommit, hents]
    exact ⟨⟨m, hm, hdb, hlow, by lia⟩, by lia⟩

theorem Saving.crash {records : List Bytes} (h : Saving d g rd records rec) (keep : Nat) :
    Sound (d.cut keep) none := by
  rcases h.written with ⟨file, done, hfile, hstate, hsynced, hvalid, hall⟩
  let ps := (Wal.framing.records file).1
  have heq : file = Wal.framing.frames ps := hfile.clean.eq_frames
  have hkeep : (Wal.framing.frames ps).length ≤ max keep d.synced := by
    rw [← heq, hsynced]
    exact Nat.le_max_right _ _
  rcases Framing.take_frames_append hvalid (Or.inl rfl) hkeep with ⟨rs, u, hrs, hu, hcut⟩
  have hrsValid : forall p, p ∈ rs -> Wal.framing.valid p :=
    fun p hp => hvalid p (hrs.subset hp)
  rcases hrs with ⟨more, rfl⟩
  have hleads := h.leads
  rw [← hall, List.append_assoc] at hleads
  rcases hleads.after hrsValid with ⟨r, hfold, hrest⟩
  rcases h.fits hrest.here with ⟨hholds, hcommit⟩
  have hdesc := hfile.frames hrsValid hfold
  have hreplay : replay ((d.cut keep).state) = .ok r := by
    have hcutState : (d.cut keep).state =
        file ++ Wal.framing.frames rs ++ u := by
      show d.state.take (max keep d.synced) = _
      rw [hstate, heq, ← Framing.frames_append, ← Framing.frames_append, ← hcut,
        List.append_nil]
    have hrec := hdesc.replay_eq
    rw [replay_eq] at hrec ⊢
    rw [hcutState, Framing.records_append hdesc.clean, Framing.records_of_next_none hu.next,
      List.append_nil]
    exact hrec
  exact ⟨⟨r, hreplay, hholds, hcommit⟩, rfl⟩

theorem Saving.write {p : Bytes} {ps : List Bytes} (h : Saving d g rd (p :: ps) rec)
    (hp : Wal.framing.valid p) :
    Sound (g.save d rd (p :: ps)).1 (g.save d rd (p :: ps)).2 := by
  rw [Group.save, Wal.appendRecord_of_le hp]
  rcases h.written with ⟨file, done, hfile, hstate, hsynced, hvalid, hall⟩
  refine ⟨rec, ?_, h.leads, h.stored, h.engines, h.applied, h.batch⟩
  refine ⟨file, done ++ [p], hfile, ?_, hsynced, ?_, ?_⟩
  · show d.state ++ Wal.frame p = _
    rw [hstate, Framing.frames_append, List.append_assoc, Framing.frames_cons,
      Framing.frames_nil, List.append_nil]
    rfl
  · intro q hq
    rcases List.mem_append.mp hq with hq | hq
    · exact hvalid q hq
    · rw [List.mem_singleton.mp hq]
      exact hp
  · rw [List.append_assoc]
    exact hall

theorem savedIndex_numbered {base : Nat} {ents : List Entry}
    (h : NumberedFrom (base + 1) ents) : savedIndex base ents = base + ents.length := by
  rw [savedIndex]
  cases hcase : ents.getLast? with
  | none =>
      rw [List.getLast?_eq_none_iff.mp hcase]
      rfl
  | some e =>
      rw [List.getLast?_eq_getElem?] at hcase
      have hlt := (List.getElem?_eq_some_iff.mp hcase).choose
      have hidx := h _ e hcase
      show e.index = _
      lia

theorem savedIndex_batch (h : BatchOf g.node rd) (hstored : Stored g.node g.lastIndex rec) :
    savedIndex g.lastIndex rd.entries = rec.snapIndex + g.node.log.entries.length := by
  have hback := hstored.backed
  have hlast := g.node.log.lastIndex_eq
  have hsnap := hback.snapIndex_eq
  have hsnapLe := hback.snap_le
  have hle := hback.stabled_le
  rw [savedIndex, h.entries]
  cases hcase : (g.node.log.entries.drop (g.node.stabled - g.node.log.snapIndex)).getLast? with
  | none =>
      have hlen := congrArg List.length (List.getLast?_eq_none_iff.mp hcase)
      rw [List.length_drop, List.length_nil] at hlen
      have hcomplete := hback.complete (by lia)
      show g.lastIndex = _
      rw [hstored.last, hcomplete]
  | some e =>
      rw [List.getLast?_eq_getElem?] at hcase
      have hlt := (List.getElem?_eq_some_iff.mp hcase).choose
      have hidx := (hback.numbered.drop _) _ e hcase
      rw [List.length_drop] at hidx hlt
      show e.index = _
      lia

theorem Saving.finish (h : Saving d g rd [] rec) :
    Sound (g.save d rd []).1 (g.save d rd []).2 := by
  rcases h.written with ⟨file, done, hfile, hstate, hsynced, hvalid, hall⟩
  have hleads := h.leads
  rw [← hall] at hleads
  rcases hleads.after hvalid with ⟨r, hfold, _, rfl⟩
  have hdesc := hfile.frames hvalid hfold
  rw [← hstate] at hdesc
  have hback := h.stored.backed
  have hsave : (if rd.entries ≠ [] ∨ rd.hardState ≠ none then d.state.length else d.synced) =
      d.state.length := by
    split
    · rfl
    · next hnone =>
        rcases not_or.mp hnone with ⟨hents, hhard⟩
        rw [readyPayloads, not_not.mp hents, not_not.mp hhard] at hall
        have hdone : done = [] := (List.append_eq_nil_iff.mp hall).left
        rw [hstate, hdone, hsynced, Framing.frames_nil, List.append_nil]
  have hcommit : (rd.hardState.getD rec.hardState).commit = g.node.log.committed ∧
      (rd.hardState.getD g.node.prevHard).commit = g.node.log.committed := by
    rw [h.batch.hardState]
    split
    · exact ⟨rfl, rfl⟩
    · next hsame =>
        have hprev : g.node.prevHard.commit = g.node.log.committed := by
          rw [← not_not.mp hsame]
          rfl
        have hle := h.stored.prev
        have hahead := h.stored.ahead
        exact ⟨by show rec.hardState.commit = _; lia, hprev⟩
  have hlen := g.node.log.lastIndex_eq
  have hlast := hback.stabled_le
  have hsnap := hback.snapIndex_eq
  refine ⟨savedState rec g.node.log rd, hdesc.replay_eq, hsave, ?_, rfl, ?_, hcommit.left,
    hcommit.right, h.engines, h.batch, [], rfl, h.applied⟩
  · exact {
      snapIndex_eq := hback.snapIndex_eq
      numbered := hback.numbered
      applied_le := hback.applied_le
      stabled_le := hback.stabled_le
      stored_le := by
        show g.node.stabled ≤ rec.snapIndex + g.node.log.entries.length
        lia
      take_eq := rfl
      complete := fun _ => rfl }
  · show savedIndex g.lastIndex rd.entries = rec.snapIndex + g.node.log.entries.length
    exact savedIndex_batch h.batch h.stored

/-!
## Applying
-/

theorem Applying.numbered {rest : List Entry} (h : Applying d g rd rest rec) :
    NumberedFrom (g.sm.applied + 1) rest ∧ g.sm.applied + rest.length ≤ g.node.log.committed := by
  rcases h.progress with ⟨done, hsplit, happlied⟩
  rcases Node.nextCommitted_ok h.backed with ⟨ents, hents, hnum, hlen⟩
  rw [h.batch.committed] at hents
  cases hents
  rw [hsplit] at hnum hlen
  rw [List.length_append] at hlen
  constructor
  · have hdrop := hnum.drop done.length
    rw [List.drop_left] at hdrop
    rw [happlied, Nat.add_right_comm]
    exact hdrop
  · lia

theorem Applying.sound {rest : List Entry} (h : Applying d g rd rest rec) : Sound d none := by
  rcases h.engines.holdsMachine with ⟨m, hm, hdb, hlow, hhigh⟩
  have hle := h.numbered.right
  have hcommit := h.commit
  have hlast := g.node.log.lastIndex_eq
  have hbound := g.node.log.committed_le_lastIndex
  have hsnap := h.backed.snapIndex_eq
  refine ⟨⟨rec, h.replayed, ⟨m, hm, hdb, hlow, by lia⟩, ?_⟩, h.synced⟩
  rw [h.entries]
  lia

theorem Applying.applyNext {e : Entry} {rest : List Entry}
    (h : Applying d g rd (e :: rest) rec) (hown : WritesOwn e) :
    Sound (g.apply cfg d rd (e :: rest)).1 (g.apply cfg d rd (e :: rest)).2 := by
  rw [Group.apply]
  split
  · exact h.sound
  · next x hx =>
      have hidx : e.index = g.sm.applied + 1 := h.numbered.left 0 e rfl
      rw [StateMachine.applyEntry, if_neg (not_not.mpr hidx)] at hx
      rcases bind_eq_ok.mp hx with ⟨cmd, hcmd, hpure⟩
      cases hpure
      rcases h.progress with ⟨done, hsplit, happlied⟩
      have hrange : e.InRange := h.batch.inRange e (by
        rw [hsplit]
        exact List.mem_append_right _ List.mem_cons_self)
      have hkept : Kept (g.sm.commit e cmd) := by
        apply h.engines.kept.commit (by lia) hrange.left hrange.right
        intro c hc
        apply hown c
        rw [hcmd, hc]
      have hnext : (g.sm.commit e cmd).applied = g.sm.applied + 1 := hidx
      have hengines : Engines d.db (g.sm.commit e cmd) g.imm rec.snapIndex :=
        h.engines.mono hkept (by lia)
      refine ⟨rec, { h with engines := hengines, progress := ⟨done ++ [e], ?_, ?_⟩ }⟩
      · rw [List.append_assoc]
        exact hsplit
      · show (g.sm.commit e cmd).applied = _
        rw [hnext, List.length_append]
        show g.sm.applied + 1 = g.node.log.applied + (done.length + 1)
        lia

theorem Applying.settles {node : Node} {appliedI : Nat} {stage : Stage}
    (h : Applying d g rd [] rec) (hadv : g.node.advance rd = .ok node) :
    Settled d { g with node := node, appliedI := appliedI, stage := stage } rec ∧
      node.stabled = node.log.lastIndex := by
  have hlog := Node.advance_log hadv
  have hback := h.backed
  rcases h.progress with ⟨done, hsplit, happlied⟩
  rw [List.append_nil] at hsplit
  have hcommitted : forall e, e ∈ rd.committedEntries -> e.index ≤ g.node.stabled :=
    fun e he => (hback.nextCommitted_le h.batch.committed he).right
  -- The stored entries are those of the log, so that all of it is persisted.
  have hstable : Backed node.log node.stabled rec ∧ node.stabled = g.node.log.lastIndex := by
    rcases bind_eq_ok.mp hadv with ⟨n1, hn1, hrest⟩
    rcases bind_eq_ok.mp hrest with ⟨n2, hn2, hpure⟩
    cases hpure
    rw [h.batch.entries] at hn1
    rcases Backed.advanceStable (n :=
        { g.node with prevHard := rd.hardState.getD g.node.prevHard })
      hback.snapIndex_eq h.entries hback.numbered ⟨hback.snap_le, hback.stabled_le⟩ hn1 with
      ⟨hback1, hstabled1⟩
    have hbatch : forall e, e ∈ rd.committedEntries -> e.index ≤ n1.stabled := by
      intro e he
      rw [hstabled1]
      exact Nat.le_trans (hcommitted e he) hback.stabled_le
    rcases Node.advanceApplied_log hn2 with ⟨_, _, _, _, _, hstabled2⟩
    have hback2 := hback1.advanceApplied hbatch hn2
    exact ⟨hback2, hstabled2.trans hstabled1⟩
  have hlast : node.log.lastIndex = g.node.log.lastIndex := by
    rw [RaftLog.lastIndex_eq, RaftLog.lastIndex_eq, hlog.entries, hlog.snapIndex]
  have hnum := h.numbered
  have hfirst : NumberedFrom (g.node.log.applied + 1) rd.committedEntries := by
    rcases Node.nextCommitted_ok hback with ⟨ents, hents, hnum, _⟩
    rw [h.batch.committed] at hents
    cases hents
    exact hnum
  have hsame : g.sm.applied = node.log.applied := by
    have hdone := savedIndex_numbered hfirst
    rw [hsplit] at hdone
    rw [hlog.applied, happlied, ← hdone, hsplit]
    rfl
  have hbound := g.node.log.committed_le_lastIndex
  have hcommit := h.commit
  have hahead := hlog.committed
  refine ⟨⟨h.replayed, h.synced, ⟨hstable.left, h.last, ?_, by show _ ≤ node.log.committed; lia, ?_, ?_⟩, h.engines, hsame⟩,
    hstable.right.trans hlast.symm⟩
  · show node.prevHard.commit ≤ _
    rw [hlog.prevHard, h.prev]
    lia
  · show _ ≤ node.stabled
    lia
  · show node.log.applied ≤ _
    have hle := hnum.right
    rw [← hsame]
    lia

theorem Applying.acknowledge (h : Applying d g rd [] rec) :
    Sound (g.apply cfg d rd []).1 (g.apply cfg d rd []).2 := by
  rw [Group.apply]
  split
  · exact h.sound
  · next node hadv =>
      dsimp only
      split
      · exact ⟨rec, (h.settles hadv).left⟩
      · exact ⟨rec, h.settles hadv⟩

/-!
## Compacting
-/

theorem Settled.compact (h : Settled d g rec) (hstable : g.node.stabled = g.node.log.lastIndex)
    (hengines : Engines d.db g.sm g.imm g.sm.applied) (hrange : g.node.InRange) :
    Sound (g.compact d).1 (g.compact d).2 := by
  rw [Group.compact]
  split
  · exact h.sound
  · next x hx =>
      rcases bind_eq_ok.mp hx with ⟨node, hnode, hx⟩
      rcases bind_eq_ok.mp hx with ⟨ents, hents, hx⟩
      rcases bind_eq_ok.mp hx with ⟨buf, hbuf, hpure⟩
      cases hpure
      rcases Replica.backed_compactTo h.stored.backed hrange hnode hents with
        ⟨hrange', rfl, hnum, hsnap, hback'⟩
      have hdesc := Storage.image_describes hrange'.hardState hsnap
        hrange'.right.right.right.left (fun e he => hrange'.entries hnum he) hnum
        (mapError_eq_ok.mp hbuf)
      rcases bind_eq_ok.mp hnode with ⟨log, hlog, hpure⟩
      cases hpure
      have hcommitted := RaftLog.committed_compactTo hlog
      rcases RaftLog.compactTo_tail h.stored.backed.numbered hlog with ⟨_, _, happlied, _, _⟩
      have hprev := h.stored.prev
      have hahead := h.stored.ahead
      have hbound := g.node.log.committed_le_lastIndex
      have hle := log.applied_le
      have hsnapLe := log.snapIndex_le
      have hsame := h.applied
      exact ⟨_, hdesc.replay_eq, rfl,
        { backed := hback'
          last := rfl
          prev := by
            show g.node.prevHard.commit ≤ log.committed
            lia
          ahead := Nat.le_refl _
          stable := by
            show log.committed ≤ g.node.stabled
            lia
          applied := hle },
        hengines.lower (by show log.snapIndex ≤ _; lia), hsame.trans happlied.symm⟩

/-!
## Installing a snapshot
-/

theorem image_boundary (hs : HardState) (index term : Nat) :
    exists buf, Storage.image hs index term [] = .ok buf := by
  have hcompact : (recCompact :: compactBody index term).length ≤ Wal.maxPayload := by
    rw [List.length_cons, compactBody, List.length_append, putLE_length, putLE_length]
    decide
  have hhard : (recHardState :: hardStateBody hs).length ≤ Wal.maxPayload := by
    rw [List.length_cons, hardStateBody, List.length_append, List.length_append, putLE_length,
      putLE_length, putLE_length]
    decide
  exact ⟨_, bind_eq_ok.mpr ⟨_, Wal.appendRecord_of_le hcompact,
    bind_eq_ok.mpr ⟨_, Wal.appendRecord_of_le hhard, rfl⟩⟩⟩

theorem Group.rewrite_sound {x : Checkpoint} (hreplay : replay d.state = .ok rec)
    (hdb : d.db = some x.machine.db) (hrange : g.node.InRange)
    (hterm : x.leaderTerm < rangeLE 8) : Sound (g.rewrite d x).1 (g.rewrite d x).2 := by
  have hstorage : openStorage d.state d.synced =
      .ok ({ file := d.state, synced := d.synced,
             lastIndex := rec.snapIndex + rec.entries.length }, rec) := by
    rw [openStorage, hreplay]
    rfl
  rcases image_boundary (g.boundary x) x.index x.term with ⟨buf, hbuf⟩
  have hrewritten : g.rewritten d x = .ok buf := by
    rw [Group.rewritten, hstorage, hbuf]
    rfl
  have hhard : (g.boundary x).InRange ∧ (g.boundary x).commit = x.index := by
    rw [Group.boundary]
    split
    · have hvote : 0 < rangeLE 8 := by decide
      exact ⟨⟨hterm, hvote, x.kept.index_lt⟩, rfl⟩
    · exact ⟨⟨hrange.left, hrange.right.left, x.kept.index_lt⟩, rfl⟩
  have hdesc := Storage.image_describes hhard.left x.kept.index_lt x.kept.term_lt
    (fun e he => absurd he List.not_mem_nil) (NumberedFrom.nil _) hbuf
  rw [Group.rewrite, hrewritten]
  refine ⟨⟨_, hdesc.replay_eq, ⟨x.machine, x.kept, ?_, Nat.le_refl _, ?_⟩, ?_⟩, rfl⟩
  · rw [hdb]
    rfl
  · exact Nat.le_of_eq hhard.right.symm
  · exact Nat.le_of_eq hhard.right

theorem Restorable.opened (h : Restorable d.db d.state) :
    Restorable d.opened.db d.opened.state := by
  rcases h with ⟨rec, hreplay, hmachine, hcommit⟩
  exact ⟨rec, hreplay, hmachine, hcommit⟩

theorem Restorable.start (h : Restorable d.db d.state) (hsynced : d.synced = d.state.length) :
    Sound d.opened (openGroup cfg d.opened).toOption := by
  rcases @Restorable.opens cfg _ h.opened hsynced with ⟨g, rec, hopen, hsettled, hstage, _⟩
  rw [hopen]
  exact hsettled.live hstage

/-!
## Crashes
-/

theorem Sound.cut (h : Sound d none) (keep : Nat) : Sound (d.cut keep) none := by
  rcases h with ⟨hrestorable, hsynced⟩
  have hsame : (d.cut keep).state = d.state := by
    show d.state.take (max keep d.synced) = d.state
    apply List.take_of_length_le
    rw [hsynced]
    exact Nat.le_max_right _ _
  refine ⟨?_, rfl⟩
  rw [hsame]
  exact hrestorable

theorem Live.crash (h : Live d g) (hmay : g.MayCrash) (keep : Nat) :
    Sound (d.cut keep) none := by
  rw [Live] at h
  rw [Group.MayCrash] at hmay
  cases hstage : g.stage with
  | saving rd records =>
      rw [hstage] at h
      rcases h with ⟨rec, hsaving⟩
      exact hsaving.crash keep
  | applying rd rest =>
      rw [hstage] at h
      rcases h with ⟨rec, happlying⟩
      exact happlying.sound.cut keep
  | checkpointing | compacting =>
      rw [hstage] at h
      rcases h with ⟨rec, hsettled, _⟩
      exact hsettled.sound.cut keep
  | moveIn x =>
      rw [hstage] at h hmay
      rcases h with ⟨rec, hreplay, hsynced, hstored, hdb⟩
      have hsnap : rec.snapIndex = 0 := hstored.backed.snapIndex_eq.trans hmay
      have hstart : HoldsMachine d.db rec.snapIndex rec.hardState.commit := by
        rw [hdb, hsnap]
        exact ⟨{}, Kept.init, rfl, Nat.le_refl _, Nat.zero_le _⟩
      exact Sound.cut ⟨⟨rec, hreplay, hstart,
        Nat.le_trans hstored.stable hstored.backed.stored_le⟩, hsynced⟩ keep
  | cleanUp x | rewriting x =>
      rw [hstage] at hmay
      exact hmay.elim
  | reopening =>
      rw [hstage] at h
      exact Sound.cut h keep
  | idle | closing x | removeOld x | moveAway x =>
      rw [hstage] at h
      rcases h with ⟨rec, hsettled⟩
      exact hsettled.sound.cut keep

/-!
## Every action
-/

theorem Live.mapEngines (h : Live d g) (hrun : g.stage.Running) {db imm : Option Store}
    (hmap : forall low, Engines d.db g.sm g.imm low -> Engines db g.sm imm low) :
    Live { d with db := db } { g with imm := imm } := by
  rw [Live] at h ⊢
  dsimp only
  cases hstage : g.stage with
  | idle =>
      rw [hstage] at h
      rcases h with ⟨rec, hsettled⟩
      exact ⟨rec, { hsettled.mapEngines hmap with }⟩
  | saving rd records =>
      rw [hstage] at h
      rcases h with ⟨rec, hsaving⟩
      exact ⟨rec, { hsaving with engines := hmap _ hsaving.engines }⟩
  | applying rd rest =>
      rw [hstage] at h
      rcases h with ⟨rec, happlying⟩
      exact ⟨rec, { happlying with engines := hmap _ happlying.engines }⟩
  | checkpointing =>
      rw [hstage] at h
      rcases h with ⟨rec, hsettled, hstable⟩
      exact ⟨rec, { hsettled.mapEngines hmap with }, hstable⟩
  | compacting =>
      rw [hstage] at h
      rcases h with ⟨rec, hsettled, hstable, hengines⟩
      exact ⟨rec, { hsettled.mapEngines hmap with }, hstable, hmap _ hengines⟩
  | closing x | removeOld x | moveAway x | moveIn x | cleanUp x | rewriting x | reopening =>
      rw [hstage] at hrun
      exact hrun.elim

theorem Live.flushSealed (h : Live d g) (hrun : g.stage.Running) {s : Store}
    (himm : g.imm = some s) : Live { d with db := some s } { g with imm := none } := by
  apply h.mapEngines hrun
  intro low hengines
  rw [himm] at hengines
  exact hengines.flushSealed

theorem Settled.flushed (h : Settled d g rec) (stage : Stage) :
    Settled { d with db := some g.sm.db } { g with stage := stage, imm := none } rec := by
  have hbase := h.stored.backed.snapIndex_eq
  have hsnap := g.node.log.snapIndex_le
  have hsame := h.applied
  exact { h with engines := (Engines.flush h.engines.kept).lower (by lia) }

theorem Live.next (h : Live d g) (hallowed : g.MayGoOn d) :
    Sound (g.next cfg d).1 (g.next cfg d).2 := by
  have hlive := h
  rw [Live] at h
  rw [Group.MayGoOn] at hallowed
  rw [Group.next]
  cases hstage : g.stage with
  | idle =>
      rw [hstage] at h hallowed
      rcases h with ⟨rec, hsettled⟩
      exact hsettled.ready hstage hallowed
  | saving rd records =>
      rw [hstage] at h hallowed
      rcases h with ⟨rec, hsaving⟩
      cases records with
      | nil => exact hsaving.finish
      | cons p ps => exact hsaving.write hallowed
  | applying rd rest =>
      rw [hstage] at h hallowed
      rcases h with ⟨rec, happlying⟩
      cases rest with
      | nil => exact happlying.acknowledge
      | cons e rest => exact happlying.applyNext hallowed
  | checkpointing =>
      rw [hstage] at h
      rcases h with ⟨rec, hsettled, hstable⟩
      cases himm : g.imm with
      | some s =>
          have hrun : g.stage.Running := by
            rw [hstage]
            trivial
          exact hlive.flushSealed hrun himm
      | none =>
          dsimp only
          exact ⟨rec, hsettled.flushed .compacting, hstable,
            Engines.flush hsettled.engines.kept⟩
  | compacting =>
      rw [hstage] at h hallowed
      rcases h with ⟨rec, hsettled, hstable, hengines⟩
      exact hsettled.compact hstable hengines hallowed
  | closing x =>
      rw [hstage] at h
      rcases h with ⟨rec, hsettled⟩
      cases himm : g.imm with
      | some s =>
          have hflushed : Settled { d with db := some s } { g with imm := none } rec := by
            apply hsettled.mapEngines
            intro low hengines
            rw [himm] at hengines
            exact hengines.flushSealed
          show Live _ _
          rw [Live]
          dsimp only
          rw [hstage]
          exact ⟨rec, { hflushed with }⟩
      | none =>
          have hflushed := hsettled.flushed .idle
          dsimp only
          split
          · exact ⟨hflushed.restorable, rfl⟩
          · exact ⟨rec, { hflushed with synced := rfl }⟩
  | removeOld x =>
      rw [hstage] at h
      rcases h with ⟨rec, hsettled⟩
      exact ⟨rec, { hsettled with }⟩
  | moveAway x =>
      rw [hstage] at h
      rcases h with ⟨rec, hsettled⟩
      exact ⟨rec, hsettled.replayed, hsettled.synced, hsettled.stored, rfl⟩
  | moveIn x =>
      rw [hstage] at h
      rcases h with ⟨rec, hreplay, hsynced, _, _⟩
      exact ⟨rec, hreplay, hsynced, rfl⟩
  | cleanUp x =>
      rw [hstage] at h
      exact h
  | rewriting x =>
      rw [hstage] at h hallowed
      rcases h with ⟨rec, hreplay, _, hdb⟩
      exact Group.rewrite_sound hreplay hdb hallowed.left hallowed.right
  | reopening =>
      rw [hstage] at h
      exact h.left.start h.right

theorem Live.exec (h : Live d g) {a : GroupAction} (hallowed : g.Allowed d a) :
    Sound (g.exec cfg d a).1 (g.exec cfg d a).2 := by
  cases a with
  | openGroup => exact h
  | feed ev =>
      rw [Group.exec]
      split
      · next hidle =>
          have hstage : g.stage = .idle := hidle.eq
          have hlive := h
          rw [Live, hstage] at h
          rcases h with ⟨rec, hsettled⟩
          cases hfeed : Replica.feed g.node ev with
          | error e => exact hsettled.sound
          | ok node => exact (hsettled.feed (hallowed hidle) hfeed).live hstage
      · exact h
  | next => exact h.next hallowed
  | sealMemtable =>
      rw [Group.exec]
      split
      · next hseal => exact h.mapEngines hseal.left fun low hengines => hengines.sealMemtable
      · exact h
  | flushSealed =>
      rw [Group.exec]
      split
      · next s himm =>
          split
          · next hrun => exact h.flushSealed hrun himm
          · exact h
      · exact h
  | install x =>
      rw [Group.exec]
      split
      · next hidle =>
          rw [Live, hidle.eq] at h
          rcases h with ⟨rec, hsettled⟩
          exact ⟨rec, { hsettled with }⟩
      · exact h
  | crash keep => exact h.crash hallowed keep

end Stages

theorem GroupProcess.sound_exec {cfg : GroupConfig} {p : GroupProcess} {a : GroupAction}
    (h : Sound p.disk p.group) (hallowed : p.Allowed a) :
    Sound (p.exec cfg a).disk (p.exec cfg a).group := by
  cases hgroup : p.group with
  | some g =>
      rw [hgroup] at h
      unfold GroupProcess.exec
      rw [hgroup]
      exact Live.exec h (hallowed g hgroup)
  | none =>
      have hclosed := h
      rw [hgroup] at hclosed
      unfold GroupProcess.exec
      rw [hgroup]
      cases a with
      | openGroup => exact hclosed.left.start hclosed.right
      | crash keep => exact hclosed.cut keep
      | _ => exact h

/-!
## Every run
-/

theorem GroupProcess.sound_start : Sound ({} : GroupProcess).disk ({} : GroupProcess).group := by
  have hmachine : HoldsMachine none 0 0 :=
    ⟨{}, Kept.init, rfl, Nat.le_refl _, Nat.le_refl _⟩
  exact ⟨⟨{}, rfl, hmachine, Nat.le_refl _⟩, rfl⟩

/-- Wherever a process is stopped, the group can be reopened. -/
theorem reopens_of_allowed {cfg : GroupConfig} {as : List GroupAction}
    (h : Guarded (GroupProcess.exec cfg) GroupProcess.Allowed {} as)
    (hstopped : (as.foldl (GroupProcess.exec cfg) {}).group = none) :
    Reopens cfg (as.foldl (GroupProcess.exec cfg) {}).disk := by
  have hsound := h.invariant (I := fun p => Sound p.disk p.group)
    (fun p a hp ha => GroupProcess.sound_exec hp ha) GroupProcess.sound_start
  rw [hstopped] at hsound
  exact hsound.left.reopens hsound.right

def followerConfig : GroupConfig where
  raft := { id := 2, peers := [1, 2, 3] }
  snapshotEvery := 1
  member := by decide

def replicate (index commit : Nat) : Message :=
  { type := .app
    fromId := 1
    toId := 2
    term := 1
    logIndex := index - 1
    logTerm := if index = 1 then 0 else 1
    entries := [{ index := index, term := 1 }]
    commit := commit }

def checkpointAt (index : Nat) (h : index ≠ 0 ∧ index < rangeLE 8) : Checkpoint where
  leaderTerm := 1
  machine := ({} : StateMachine).commit { index := index, term := 1 } none
  kept := Kept.init.commit h.left h.right (show 1 < rangeLE 8 by decide) (fun c hc => by cases hc)
  pos := Nat.pos_of_ne_zero h.left

/-- A batch is saved in part, and the next one applied; then the log is compacted
and a snapshot installed. -/
def stoppedRun : List GroupAction :=
  [.openGroup, .feed (.step (replicate 1 0)), .next, .next, .crash 100,
    .openGroup, .feed (.step (replicate 2 1)), .next, .next, .next, .next, .next, .sealMemtable,
    .next, .next, .next, .next, .install (checkpointAt 5 (by decide)), .next, .next, .next,
    .next, .next, .next, .crash 0]

theorem reopens_of_allowed_stopped :
    (stoppedRun.foldl (GroupProcess.exec followerConfig) {}).disk.db.isSome ∧
      Reopens followerConfig (stoppedRun.foldl (GroupProcess.exec followerConfig) {}).disk := by
  have hguarded : Guarded (GroupProcess.exec followerConfig) GroupProcess.Allowed {}
      stoppedRun := by
    decide +kernel
  have hstopped : (stoppedRun.foldl (GroupProcess.exec followerConfig) {}).group.isNone := by
    decide +kernel
  constructor
  · decide +kernel
  · exact reopens_of_allowed hguarded (Option.isNone_iff_eq_none.mp hstopped)

/-- The process crashes when the new engine is in place and the state file is
still the old one. -/
def replacedRun : List GroupAction :=
  [.openGroup, .install (checkpointAt 1 (by decide)), .next, .next, .next, .next, .crash 0]

/-- The engine is ahead of the commit index: the group panics whenever it is
opened. -/
theorem not_reopens_replaced :
    Guarded (GroupProcess.exec followerConfig) GroupProcess.Allowed {} replacedRun.dropLast ∧
      openGroup followerConfig
        (replacedRun.foldl (GroupProcess.exec followerConfig) {}).disk.opened =
          .error (.raft (.appliedBeyondCommit 1 0)) ∧
      ¬ Reopens followerConfig
        (replacedRun.foldl (GroupProcess.exec followerConfig) {}).disk := by
  have hpanic : errorWith (openGroup followerConfig
      (replacedRun.foldl (GroupProcess.exec followerConfig) {}).disk.opened)
      (fun e => e = .raft (.appliedBeyondCommit 1 0)) := by
    decide +kernel
  rcases exists_of_errorWith hpanic with ⟨e, herror, he⟩
  rw [of_decide_eq_true he] at herror
  refine ⟨by decide +kernel, herror, ?_⟩
  intro hreopens
  rcases hreopens with ⟨g, rec, ents, hopen, _⟩
  rw [herror] at hopen
  cases hopen

end Cluster
end Basalt
