import Basalt.Cluster.Group
import Basalt.Lib.Run

/-!
# Reopening a group

The two stores of a group are durable on their own, and a restart is possible
only when they fit: the engine has applied what the snapshot covers, and
nothing that is not committed in the state file.
-/

namespace Basalt
namespace Cluster

open Lib Raft Engine

/-!
## The property
-/

/-- The group opens, its applied index lies between the snapshot and the commit
index, the commit index in the log, and what is left to apply continues where
the engine is. -/
def Reopens (cfg : GroupConfig) (d : GroupDisk) : Prop :=
  exists g rec ents, openGroup cfg d.opened = .ok g ∧ replay d.state = .ok rec ∧
    rec.snapIndex ≤ g.sm.applied ∧ g.sm.applied ≤ rec.hardState.commit ∧
    rec.hardState.commit ≤ rec.snapIndex + rec.entries.length ∧
    g.node.nextCommitted = .ok ents ∧ NumberedFrom (g.sm.applied + 1) ents ∧
    g.sm.applied + ents.length = rec.hardState.commit ∧
    forall index applied, (g.sm.apply ents).2 ≠ .error (.applyGap index applied)

/-!
## The conditions on a run
-/

def WritesOwn (e : Entry) : Prop :=
  forall c, entryCommand e = .ok (some c) -> Unreserved c.batch.ops

instance (e : Entry) : Decidable (WritesOwn e) :=
  match h : entryCommand e with
  | .ok (some c) =>
      decidable_of_iff (Unreserved c.batch.ops) ⟨
        fun hc c' hc' => by
          rw [h] at hc'
          cases hc'
          exact hc,
        fun hall => hall c h⟩
  | .ok none => .isTrue fun c hc => by
      rw [h] at hc
      cases hc
  | .error _ => .isTrue fun c hc => by
      rw [h] at hc
      cases hc

namespace Group

/-- What the next step of the loop asks for: a batch is saved behind a file that
scans to its end, its records fit their fields, and entries write no reserved
key. -/
def MayGoOn (g : Group) (d : GroupDisk) : Prop :=
  match g.stage with
  | .idle => g.node.hasReady = true -> g.node.InRange ∧ Wal.framing.Clean d.state
  | .saving _ (p :: _) => Wal.framing.valid p
  | .applying _ (e :: _) => WritesOwn e
  | .compacting => g.node.InRange
  | .rewriting x => g.node.InRange ∧ x.leaderTerm < rangeLE 8
  | _ => True

/-- The engine is not being replaced: its directory is there, or the log starts
at its first entry, and the state file has the boundary of the engine. -/
def MayCrash (g : Group) : Prop :=
  match g.stage with
  | .moveIn _ => g.node.log.snapIndex = 0
  | .cleanUp _ | .rewriting _ => False
  | _ => True

def Allowed (g : Group) (d : GroupDisk) : GroupAction -> Prop
  | .feed ev => g.stage.Idle -> ev.Conforms g.node
  | .next => g.MayGoOn d
  | .crash _ => g.MayCrash
  | _ => True

end Group

def GroupProcess.Allowed (p : GroupProcess) (a : GroupAction) : Prop :=
  forall g, p.group = some g -> g.Allowed p.disk a

instance (g : Group) (d : GroupDisk) : Decidable (g.MayGoOn d) := by
  unfold Group.MayGoOn Raft.Node.InRange Framing.Clean
  split <;> infer_instance

instance (g : Group) : Decidable g.MayCrash := by
  unfold Group.MayCrash
  split <;> infer_instance

instance (g : Group) (d : GroupDisk) (a : GroupAction) : Decidable (g.Allowed d a) := by
  cases a <;> unfold Group.Allowed <;> infer_instance

open scoped Evaluate in
instance (p : GroupProcess) (a : GroupAction) : Decidable (p.Allowed a) := by
  unfold GroupProcess.Allowed
  infer_instance

/-!
## Machines on disk
-/

/-- The engine directory holds the state of a machine between two indexes. -/
def HoldsMachine (db : Option Store) (low high : Nat) : Prop :=
  exists sm, Kept sm ∧ sm.db = db.getD ∅ ∧ low ≤ sm.applied ∧ sm.applied ≤ high

structure Engines (db : Option Store) (sm : StateMachine) (imm : Option Store)
    (low : Nat) : Prop where
  kept : Kept sm
  durable : exists low', low ≤ low' ∧ HoldsMachine db low low' ∧ low' ≤ sm.applied ∧
    forall s, imm = some s -> HoldsMachine (some s) low' sm.applied

namespace Engines

variable {db : Option Store} {sm sm' : StateMachine} {imm : Option Store} {low : Nat}

theorem holdsMachine (h : Engines db sm imm low) : HoldsMachine db low sm.applied := by
  rcases h.durable with ⟨low', _, ⟨m, hm, hdb, hlow, hhigh⟩, hle, _⟩
  exact ⟨m, hm, hdb, hlow, Nat.le_trans hhigh hle⟩

theorem mono (h : Engines db sm imm low) (hkept : Kept sm') (hle : sm.applied ≤ sm'.applied) :
    Engines db sm' imm low := by
  rcases h.durable with ⟨low', hlow, hdb, hlow', himm⟩
  refine ⟨hkept, low', hlow, hdb, Nat.le_trans hlow' hle, ?_⟩
  intro s hs
  rcases himm s hs with ⟨m, hm, hmdb, hml, hmh⟩
  exact ⟨m, hm, hmdb, hml, Nat.le_trans hmh hle⟩

theorem sealMemtable (h : Engines db sm imm low) : Engines db sm (some sm.db) low := by
  rcases h.durable with ⟨low', hlow, hdb, hle, _⟩
  refine ⟨h.kept, low', hlow, hdb, hle, ?_⟩
  intro s hs
  cases hs
  exact ⟨sm, h.kept, rfl, hle, Nat.le_refl _⟩

theorem flushSealed {s : Store} (h : Engines db sm (some s) low) :
    Engines (some s) sm none low := by
  rcases h.durable with ⟨low', hlow, _, _, himm⟩
  rcases himm s rfl with ⟨m, hm, hmdb, hml, hmh⟩
  refine ⟨h.kept, m.applied, Nat.le_trans hlow hml, ?_, hmh, ?_⟩
  · exact ⟨m, hm, hmdb, Nat.le_trans hlow hml, Nat.le_refl _⟩
  · intro s hs
    cases hs

theorem flush (h : Kept sm) : Engines (some sm.db) sm none sm.applied := by
  refine ⟨h, sm.applied, Nat.le_refl _, ?_, Nat.le_refl _, ?_⟩
  · exact ⟨sm, h, rfl, Nat.le_refl _, Nat.le_refl _⟩
  · intro s hs
    cases hs

theorem lower {low' : Nat} (h : Engines db sm imm low) (hle : low' ≤ low) :
    Engines db sm imm low' := by
  rcases h.durable with ⟨mid, hmid, ⟨m, hm, hdb, hml, hmh⟩, hlow, himm⟩
  exact ⟨h.kept, mid, Nat.le_trans hle hmid, ⟨m, hm, hdb, Nat.le_trans hle hml, hmh⟩, hlow,
    himm⟩

end Engines

/-!
## Disks that can be reopened
-/

/-- The state file and the engine directory fit. -/
def Restorable (db : Option Store) (state : Bytes) : Prop :=
  exists rec, replay state = .ok rec ∧
    HoldsMachine db rec.snapIndex rec.hardState.commit ∧
    rec.hardState.commit ≤ rec.snapIndex + rec.entries.length

/-- What a node takes for persisted is what the state describes, and its commit
index is ahead of the stored one. -/
structure Stored (n : Node) (lastIndex : Nat) (rec : Recovered) : Prop where
  backed : Backed n.log n.stabled rec
  last : lastIndex = rec.snapIndex + rec.entries.length
  prev : n.prevHard.commit ≤ rec.hardState.commit
  ahead : rec.hardState.commit ≤ n.log.committed
  stable : rec.hardState.commit ≤ n.stabled
  applied : n.log.applied ≤ rec.hardState.commit

structure Settled (d : GroupDisk) (g : Group) (rec : Recovered) : Prop where
  replayed : replay d.state = .ok rec
  synced : d.synced = d.state.length
  stored : Stored g.node g.lastIndex rec
  engines : Engines d.db g.sm g.imm rec.snapIndex
  applied : g.sm.applied = g.node.log.applied

theorem Settled.restorable {d : GroupDisk} {g : Group} {rec : Recovered}
    (h : Settled d g rec) : Restorable d.db d.state := by
  rcases h.engines.holdsMachine with ⟨m, hm, hdb, hlow, hhigh⟩
  have happlied := h.applied
  have hle := h.stored.applied
  refine ⟨rec, h.replayed, ⟨m, hm, hdb, hlow, by lia⟩, ?_⟩
  exact Nat.le_trans h.stored.stable h.stored.backed.stored_le

theorem apply_ne_applyGap {ents : List Entry} {sm : StateMachine}
    (h : NumberedFrom (sm.applied + 1) ents) (index applied : Nat) :
    (sm.apply ents).2 ≠ .error (.applyGap index applied) := by
  induction ents generalizing sm with
  | nil =>
      intro hgap
      cases hgap
  | cons e ents ih =>
      have hidx : e.index = sm.applied + 1 := h 0 e rfl
      intro hgap
      rw [StateMachine.apply] at hgap
      cases happly : sm.applyEntry e with
      | error err =>
          rw [happly] at hgap
          rw [StateMachine.applyEntry, if_neg (not_not.mpr hidx)] at happly
          cases hcmd : entryCommand e with
          | error cmdErr =>
              rw [hcmd] at happly
              cases happly
              rw [entryCommand] at hcmd
              split at hcmd
              · cases hdec : decodeCommand e.data with
                | error decErr =>
                    rw [hdec] at hcmd
                    cases hcmd
                    cases hgap
                | ok c =>
                    rw [hdec] at hcmd
                    cases hcmd
              · cases hcmd
          | ok cmd =>
              rw [hcmd] at happly
              cases happly
      | ok x =>
          rw [happly] at hgap
          have hx : x.1.applied = sm.applied + 1 := by
            rw [StateMachine.applyEntry, if_neg (not_not.mpr hidx)] at happly
            rcases bind_eq_ok.mp happly with ⟨cmd, _, hpure⟩
            cases hpure
            exact hidx
          have hrest : NumberedFrom (x.1.applied + 1) ents := by
            rw [hx]
            exact h.tail
          cases hres : (x.1.apply ents).2 with
          | error err =>
              dsimp only at hgap
              rw [hres] at hgap
              cases hgap
              exact ih hrest hres
          | ok out =>
              dsimp only at hgap
              rw [hres] at hgap
              cases hgap

/-- Opening a group whose files fit. -/
theorem Restorable.opens {cfg : GroupConfig} {d : GroupDisk} (h : Restorable d.db d.state)
    (hsynced : d.synced = d.state.length) :
    exists g rec, openGroup cfg d = .ok g ∧ Settled d g rec ∧ g.stage = .idle ∧
      g.node.log.committed = rec.hardState.commit ∧
      g.node.stabled = g.node.log.lastIndex := by
  rcases h with ⟨rec, hreplay, ⟨sm, hsm, hdb, hlow, hhigh⟩, hcommit⟩
  have hnum := replay_numbered hreplay
  have hmachine : newStateMachine (d.db.getD ∅) = .ok sm := by
    rw [← hdb]
    exact newStateMachine_of_kept hsm
  have hstorage : openStorage d.state d.synced =
      .ok ({ file := d.state, synced := d.synced,
             lastIndex := rec.snapIndex + rec.entries.length }, rec) := by
    rw [openStorage, hreplay]
    rfl
  rcases Node.restoreNode_ok cfg.member hnum hlow hhigh hcommit with
    ⟨n, hnode, hsnap, hents, happlied, hcommitted, hstabled, hprev⟩
  have hlast := n.log.lastIndex_eq
  have hback : Backed n.log n.stabled rec := by
    rw [hstabled]
    apply Backed.full hsnap.symm hents.symm
    rw [hsnap, hents]
    exact hnum
  let g : Group := {
    node := n
    lastIndex := rec.snapIndex + rec.entries.length
    sm := sm
    appliedI := sm.applied
    snapAt := sm.applied }
  refine ⟨g, rec, ?_, ?_, rfl, hcommitted, hstabled⟩
  · rw [openGroup, hmachine, hstorage]
    show (Node.restoreNode cfg.raft rec sm.applied).mapError GroupError.raft >>= _ = _
    rw [hnode]
    rfl
  · have hengines : Engines d.db sm none rec.snapIndex := by
      refine ⟨hsm, sm.applied, hlow, ⟨sm, hsm, hdb, hlow, Nat.le_refl _⟩, Nat.le_refl _, ?_⟩
      intro s hs
      cases hs
    exact {
      replayed := hreplay
      synced := hsynced
      stored := {
        backed := hback
        last := rfl
        prev := Nat.le_of_eq hprev
        ahead := Nat.le_of_eq hcommitted.symm
        stable := by
          rw [hstabled, hlast, hsnap, hents]
          exact hcommit
        applied := by
          rw [happlied]
          exact hhigh }
      engines := hengines
      applied := happlied.symm }

theorem Restorable.reopens {cfg : GroupConfig} {d : GroupDisk} (h : Restorable d.db d.state)
    (hsynced : d.synced = d.state.length) : Reopens cfg d := by
  have hopened : Restorable d.opened.db d.opened.state := by
    rcases h with ⟨rec, hreplay, hmachine, hcommit⟩
    exact ⟨rec, hreplay, hmachine, hcommit⟩
  rcases @Restorable.opens cfg _ hopened hsynced with
    ⟨g, rec, hopen, hsettled, _, hcommitted, hstabled⟩
  have hstored := hsettled.stored
  have happlied := hsettled.applied
  have hle := hstored.applied
  have hsnap := hstored.backed.snapIndex_eq
  have hsnapLe := g.node.log.snapIndex_le
  have hbound := g.node.log.committed_le_lastIndex
  have hrange : rec.hardState.commit ≤ rec.snapIndex + rec.entries.length :=
    Nat.le_trans hstored.stable hstored.backed.stored_le
  rcases Node.nextCommitted_ok hstored.backed with ⟨ents, hents, hnum, hlen⟩
  rw [← happlied] at hnum
  exact ⟨g, rec, ents, hopen, hsettled.replayed, by lia, by lia, hrange, hents, hnum, by lia,
    apply_ne_applyGap hnum⟩

end Cluster
end Basalt
