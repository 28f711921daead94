import Basalt.Lib.Run
import Basalt.Shard.Map

/-!
# Publishing shard maps

Coordinators move slots between groups.  Each run of `MigrateSlot` derives its
maps from the map of its own node and distributes them to all nodes: a freeze
of the slot, and after the copy the flip of its owner, or a rollback.  A node
adopts a map whose epoch is greater than that of its own.

The runs interleave at every remote call.  A call that fails may still reach
its node, at any later moment and any number of times.
-/

namespace Basalt
namespace Shard

open Lib ShardMap

inductive Purpose where
  | freeze
  | flip
  | republish
  | rollback
deriving DecidableEq, Repr

inductive Stage where
  /-- A map is at hand and its distribution has not begun. -/
  | planned (purpose : Purpose) (m : ShardMap)
  /-- `DistributeShardMap`: the peers still to call, the nodes found at or past
  the epoch of the map, and whether a call failed. -/
  | distributing (purpose : Purpose) (m : ShardMap) (todo : Finset Nat)
      (reached : Nat) (failed : Bool)
  /-- The freeze was published; barrier and final copy are under way. -/
  | frozen (m : ShardMap)
  /-- The flip was published. -/
  | flipped (m : ShardMap)
  | failed
deriving DecidableEq

/-- The map a run distributes, or will distribute again. -/
def Stage.live : Stage -> Option ShardMap
  | .planned .republish m => some m
  | .distributing _ m _ _ _ => some m
  | _ => none

/-- The map a run is about to publish for the first time. -/
def Stage.fresh : Stage -> Option ShardMap
  | .planned .republish _ => none
  | .planned _ m => some m
  | _ => none

/-- The freeze a run has begun to publish and has not lifted. -/
def Stage.holds : Stage -> Option ShardMap
  | .distributing .freeze m _ _ _ => some m
  | .frozen m => some m
  | _ => none

structure MigrateSlot where
  node : Nat
  slot : Slot
  src : Nat
  dst : Nat
  stage : Stage

namespace MigrateSlot

def Active (r : MigrateSlot) : Prop :=
  match r.stage with
  | .planned _ _ | .distributing _ _ _ _ _ | .frozen _ => True
  | .flipped _ | .failed => False

instance : (r : MigrateSlot) -> Decidable r.Active
  | ⟨_, _, _, _, .planned _ _⟩ => .isTrue True.intro
  | ⟨_, _, _, _, .distributing _ _ _ _ _⟩ => .isTrue True.intro
  | ⟨_, _, _, _, .frozen _⟩ => .isTrue True.intro
  | ⟨_, _, _, _, .flipped _⟩ => .isFalse not_false
  | ⟨_, _, _, _, .failed⟩ => .isFalse not_false

end MigrateSlot

/-- The nodes with their maps, the runs, and the calls that failed for their
callers and may still arrive. -/
structure Publish where
  peers : Finset Nat
  maps : Nat -> ShardMap
  runs : List MigrateSlot := []
  late : List (Nat × ShardMap) := []

inductive PublishAction where
  /-- `MigrateSlot` is called on a node. -/
  | migrateSlot (node : Nat) (slot : Slot) (src dst : Nat)
  /-- A run adopts its map locally and starts to call the peers. -/
  | distribute (run : Nat)
  /-- A run calls a peer; the call returns, or fails. -/
  | updateShardMap (run peer : Nat) (ok : Bool)
  /-- A run has called all peers. -/
  | report (run : Nat)
  /-- Barrier and final copy of a run end. -/
  | copied (run : Nat) (ok : Bool)
  /-- A call that failed arrives. -/
  | arrive (call : Nat)
deriving DecidableEq

inductive Refused where
  | sameGroup
  | notOwned (slot : Slot) (owner src : Nat)
  | notNow
deriving DecidableEq

namespace Publish

/-- Adopts a map only if its epoch is strictly greater. -/
def setShardMap (g : Publish) (node : Nat) (m : ShardMap) : Publish :=
  if m.epoch ≤ (g.maps node).epoch then g
  else { g with maps := Function.update g.maps node m }

def setStage (g : Publish) (run : Nat) (stage : Stage) : Publish :=
  { g with runs := g.runs.modify run fun r => { r with stage := stage } }

/-- The first checks of `MigrateSlot`: a slot that has already flipped is
published again. -/
def migrateSlot (g : Publish) (node : Nat) (slot : Slot) (src dst : Nat) :
    Except Refused Publish :=
  if src = dst then .error .sameGroup
  else
    let cur := g.maps node
    let start := fun stage : Stage =>
      { g with
        runs := g.runs ++
          [{ node := node, slot := slot, src := src, dst := dst, stage := stage }] }
    if cur.group slot = dst then pure (start (.planned .republish cur))
    else if cur.group slot ≠ src then
      .error (.notOwned slot (cur.group slot) src)
    else pure (start (.planned .freeze (cur.withMigrating slot true)))

def distribute (g : Publish) (run : Nat) (r : MigrateSlot) : Except Refused Publish :=
  match r.stage with
  | .planned purpose m =>
      let g := g.setShardMap r.node m
      let reached := if m.epoch ≤ (g.maps r.node).epoch then 1 else 0
      pure (g.setStage run
        (.distributing purpose m (g.peers.erase r.node) reached false))
  | _ => .error .notNow

def updateShardMap (g : Publish) (run : Nat) (r : MigrateSlot) (peer : Nat) (ok : Bool) :
    Except Refused Publish :=
  match r.stage with
  | .distributing purpose m todo reached failed =>
      if peer ∉ todo then .error .notNow
      else if ok then
        let g := g.setShardMap peer m
        let reached :=
          if m.epoch ≤ (g.maps peer).epoch then reached + 1 else reached
        pure (g.setStage run
          (.distributing purpose m (todo.erase peer) reached failed))
      else
        pure
          { g.setStage run
              (.distributing purpose m (todo.erase peer) reached true) with
            late := g.late ++ [(peer, m)] }
  | _ => .error .notNow

/-- `publishToAll` succeeds when no call failed and all nodes are at or past
the epoch.  A freeze that is not published is rolled back. -/
def report (g : Publish) (run : Nat) (r : MigrateSlot) : Except Refused Publish :=
  match r.stage with
  | .distributing purpose m todo reached failed =>
      if todo ≠ ∅ then .error .notNow
      else if failed = false ∧ g.peers.card ≤ reached then
        match purpose with
        | .freeze => pure (g.setStage run (.frozen m))
        | .flip | .republish => pure (g.setStage run (.flipped m))
        | .rollback => pure (g.setStage run .failed)
      else
        match purpose with
        | .freeze =>
            pure (g.setStage run
              (.planned .rollback ((g.maps r.node).withMigrating r.slot false)))
        | .flip | .republish | .rollback => pure (g.setStage run .failed)
  | _ => .error .notNow

def copied (g : Publish) (run : Nat) (r : MigrateSlot) (ok : Bool) :
    Except Refused Publish :=
  match r.stage with
  | .frozen _ =>
      if ok then
        pure (g.setStage run
          (.planned .flip ((g.maps r.node).withSlot r.slot r.dst)))
      else
        pure (g.setStage run
          (.planned .rollback ((g.maps r.node).withMigrating r.slot false)))
  | _ => .error .notNow

def onRun (g : Publish) (run : Nat)
    (f : MigrateSlot -> Except Refused Publish) : Except Refused Publish :=
  match g.runs[run]? with
  | some r => f r
  | none => .error .notNow

def exec (g : Publish) : PublishAction -> Except Refused Publish
  | .migrateSlot node slot src dst => g.migrateSlot node slot src dst
  | .distribute run => g.onRun run (g.distribute run)
  | .updateShardMap run peer ok => g.onRun run fun r => g.updateShardMap run r peer ok
  | .report run => g.onRun run (g.report run)
  | .copied run ok => g.onRun run fun r => g.copied run r ok
  | .arrive call =>
      match g.late[call]? with
      | some x => pure (g.setShardMap x.1 x.2)
      | none => .error .notNow

/-- A run is started on a node, and on a slot that no run in progress works
on. -/
def Allowed (g : Publish) : PublishAction -> Prop
  | .migrateSlot node slot _ _ =>
      node ∈ g.peers ∧ forall r, r ∈ g.runs -> r.Active -> r.slot ≠ slot
  | _ => True

instance (g : Publish) : (a : PublishAction) -> Decidable (g.Allowed a)
  | .migrateSlot _ _ _ _ => inferInstanceAs (Decidable (_ ∧ _))
  | .distribute _ | .updateShardMap _ _ _ | .report _ | .copied _ _ | .arrive _ =>
      .isTrue True.intro

/-!
## Maps that may still be adopted
-/

def Live (g : Publish) (m : ShardMap) : Prop :=
  (exists i, i ∈ g.peers ∧ m = g.maps i) ∨
  (exists r, r ∈ g.runs ∧ r.stage.live = some m) ∨
  (exists x, x ∈ g.late ∧ x.2 = m)

/-- Every live map has a smaller epoch. -/
def Outdates (g : Publish) (m : ShardMap) : Prop :=
  (forall i, i ∈ g.peers -> (g.maps i).epoch < m.epoch) ∧
  (forall r, r ∈ g.runs -> forall x, x ∈ r.stage.live -> x.epoch < m.epoch) ∧
  (forall x, x ∈ g.late -> x.2.epoch < m.epoch)

instance (g : Publish) (m : ShardMap) : Decidable (g.Outdates m) :=
  inferInstanceAs (Decidable (_ ∧ _ ∧ _))

/-- A new map is published only where it is newer than every map there is. -/
def Newest (g : Publish) : PublishAction -> Prop
  | .distribute run => forall r, r ∈ g.runs[run]? -> forall m, m ∈ r.stage.fresh -> g.Outdates m
  | _ => True

instance (g : Publish) : (a : PublishAction) -> Decidable (g.Newest a)
  | .distribute run =>
      inferInstanceAs (Decidable (forall r, r ∈ g.runs[run]? -> forall m, m ∈ r.stage.fresh -> g.Outdates m))
  | .migrateSlot _ _ _ _ | .updateShardMap _ _ _ | .report _ | .copied _ _ | .arrive _ =>
      .isTrue True.intro

/-!
## Published changes are in force
-/

/-- Maps with one epoch are one map; a map that was reported published is the
map of every node, or what it derived from; and a published freeze freezes its
slot everywhere until its run lifts it. -/
structure InForce (g : Publish) : Prop where
  agree : forall i j, i ∈ g.peers -> j ∈ g.peers ->
    (g.maps i).epoch = (g.maps j).epoch -> g.maps i = g.maps j
  derived : forall r m, r ∈ g.runs -> (r.stage = .frozen m ∨ r.stage = .flipped m) ->
    forall i, i ∈ g.peers -> Derived m (g.maps i)
  freezes : forall r m, r ∈ g.runs -> r.stage = .frozen m ->
    forall i, i ∈ g.peers -> (g.maps i).isMigrating r.slot = true

/-!
## The invariant
-/

variable {g g' : Publish} {m x y : ShardMap} {i k : Nat} {r : MigrateSlot}

structure RunOK (g : Publish) (r : MigrateSlot) : Prop where
  node_mem : r.node ∈ g.peers
  /-- A planned map is one change away from a map its node had. -/
  planned : forall purpose m, r.stage = .planned purpose m -> purpose ≠ .republish ->
    exists (c : Change) (cur : ShardMap), c.target = r.slot ∧ m = c.apply cur ∧
      Derived cur (g.maps r.node)
  freeze : forall m, r.stage = .planned .freeze m -> m.isMigrating r.slot = true
  held : forall m, r.stage.holds = some m ->
    forall y, g.Live y -> m.epoch ≤ y.epoch -> y.isMigrating r.slot = true
  covered : forall purpose m todo reached failed,
    r.stage = .distributing purpose m todo reached failed ->
      forall i, i ∈ g.peers -> i ∉ todo -> failed = true ∨ m.epoch ≤ (g.maps i).epoch
  published : forall m, (r.stage = .frozen m ∨ r.stage = .flipped m) ->
    forall i, i ∈ g.peers -> Derived m (g.maps i)

structure Inv (g : Publish) : Prop where
  /-- The maps are one line of changes. -/
  chain : forall x y, g.Live x -> g.Live y -> x.epoch ≤ y.epoch -> Derived x y
  runs : forall r, r ∈ g.runs -> RunOK g r
  slots : forall (a b : Nat) (r r' : MigrateSlot),
    g.runs[a]? = some r -> g.runs[b]? = some r' ->
    r.Active -> r'.Active -> r.slot = r'.slot -> a = b

theorem live_map (hi : i ∈ g.peers) : g.Live (g.maps i) :=
  Or.inl ⟨i, hi, rfl⟩

theorem live_run (hr : r ∈ g.runs) (hm : r.stage.live = some m) : g.Live m :=
  Or.inr (Or.inl ⟨r, hr, hm⟩)

theorem Outdates.epoch_lt (h : g.Outdates m) (hx : g.Live x) : x.epoch < m.epoch := by
  rcases hx with ⟨i, hi, rfl⟩ | ⟨r, hr, hlive⟩ | ⟨y, hy, rfl⟩
  · exact h.left i hi
  · exact h.right.left r hr x hlive
  · exact h.right.right y hy

theorem Inv.inForce (h : g.Inv) : g.InForce := by
  constructor
  · intro i j hi hj heq
    have hd := h.chain _ _ (live_map hj) (live_map hi) (Nat.le_of_eq heq.symm)
    exact hd.eq_of_epoch_le (Nat.le_of_eq heq)
  · intro r m hr hm i hi
    exact (h.runs r hr).published m hm i hi
  · intro r m hr hm i hi
    have hd := (h.runs r hr).published m (Or.inl hm) i hi
    refine (h.runs r hr).held m ?_ _ (live_map hi) hd.epoch_le
    rw [hm]
    rfl

/-!
### A node adopts a map
-/

theorem setShardMap_cases (g : Publish) (i : Nat) (x : ShardMap) :
    (g.setShardMap i x = g ∧ x.epoch ≤ (g.maps i).epoch) ∨
      (g.setShardMap i x = { g with maps := Function.update g.maps i x } ∧
        (g.maps i).epoch < x.epoch) := by
  unfold setShardMap
  split
  · next hle => exact Or.inl ⟨rfl, hle⟩
  · next hlt => exact Or.inr ⟨rfl, Nat.lt_of_not_le hlt⟩

theorem setShardMap_peers : (g.setShardMap i x).peers = g.peers := by
  rcases setShardMap_cases g i x with ⟨heq, _⟩ | ⟨heq, _⟩
  · rw [heq]
  · rw [heq]

theorem setShardMap_runs : (g.setShardMap i x).runs = g.runs := by
  rcases setShardMap_cases g i x with ⟨heq, _⟩ | ⟨heq, _⟩
  · rw [heq]
  · rw [heq]

theorem epoch_le_setShardMap : x.epoch ≤ ((g.setShardMap i x).maps i).epoch := by
  rcases setShardMap_cases g i x with ⟨heq, hle⟩ | ⟨heq, _⟩
  · rw [heq]
    exact hle
  · rw [heq]
    simp only [Function.update_self]
    exact Nat.le_refl _

theorem epoch_setShardMap_mono (j : Nat) :
    (g.maps j).epoch ≤ ((g.setShardMap i x).maps j).epoch := by
  rcases setShardMap_cases g i x with ⟨heq, _⟩ | ⟨heq, hlt⟩
  · rw [heq]
  · rw [heq]
    by_cases hj : j = i
    · subst hj
      simp only [Function.update_self]
      exact Nat.le_of_lt hlt
    · simp only [Function.update_of_ne hj]
      exact Nat.le_refl _

theorem live_setShardMap (hx : g.Live x) (hy : (g.setShardMap i x).Live y) :
    g.Live y := by
  rcases setShardMap_cases g i x with ⟨heq, _⟩ | ⟨heq, _⟩
  · rw [heq] at hy
    exact hy
  · rw [heq] at hy
    rcases hy with ⟨j, hj, rfl⟩ | hrest
    · by_cases hji : j = i
      · subst hji
        simp only [Function.update_self]
        exact hx
      · simp only [Function.update_of_ne hji]
        exact live_map hj
    · exact Or.inr hrest

theorem derived_adopt {j : Nat} (hx : (g.maps j).epoch < x.epoch -> Derived (g.maps j) x)
    (hm : Derived m (g.maps j)) : Derived m ((g.setShardMap i x).maps j) := by
  rcases setShardMap_cases g i x with ⟨heq, _⟩ | ⟨heq, hlt⟩
  · rw [heq]
    exact hm
  · rw [heq]
    by_cases hji : j = i
    · subst hji
      simp only [Function.update_self]
      exact hm.trans (hx hlt)
    · simp only [Function.update_of_ne hji]
      exact hm

theorem derived_setShardMap
    (hchain : forall x y, g.Live x -> g.Live y -> x.epoch ≤ y.epoch -> Derived x y)
    (hx : g.Live x) {j : Nat} (hj : j ∈ g.peers) (hm : Derived m (g.maps j)) :
    Derived m ((g.setShardMap i x).maps j) :=
  derived_adopt (fun hlt => hchain _ _ (live_map hj) hx (Nat.le_of_lt hlt)) hm

theorem Inv.setShardMap (h : g.Inv) (hx : g.Live x) (i : Nat) :
    (g.setShardMap i x).Inv := by
  constructor
  · intro y z hy hz
    exact h.chain y z (live_setShardMap hx hy) (live_setShardMap hx hz)
  · intro r hr
    rw [setShardMap_runs] at hr
    have hok := h.runs r hr
    constructor
    · rw [setShardMap_peers]
      exact hok.node_mem
    · intro purpose m hm hp
      rcases hok.planned purpose m hm hp with ⟨c, cur, htarget, heq, hd⟩
      exact ⟨c, cur, htarget, heq, derived_setShardMap h.chain hx hok.node_mem hd⟩
    · exact hok.freeze
    · intro m hm y hy
      exact hok.held m hm y (live_setShardMap hx hy)
    · intro purpose m todo reached failed hm j hj hjt
      rw [setShardMap_peers] at hj
      rcases hok.covered purpose m todo reached failed hm j hj hjt with hf | hle
      · exact Or.inl hf
      · exact Or.inr (Nat.le_trans hle (epoch_setShardMap_mono j))
    · intro m hm j hj
      rw [setShardMap_peers] at hj
      exact derived_setShardMap h.chain hx hj (hok.published m hm j hj)
  · rw [setShardMap_runs]
    exact h.slots

/-!
### A run moves on
-/

theorem getElem?_setStage {st : Stage} (hk : g.runs[k]? = some r) :
    (g.setStage k st).runs[k]? = some { r with stage := st } := by
  rw [setStage, List.getElem?_modify_eq, hk]
  rfl

theorem getElem?_of_setStage {st : Stage} {b : Nat}
    (hb : (g.setStage k st).runs[b]? = some r) :
    (b ≠ k ∧ g.runs[b]? = some r) ∨
      b = k ∧ exists old, g.runs[k]? = some old ∧ r = { old with stage := st } := by
  rw [setStage, List.getElem?_modify] at hb
  rcases Option.map_eq_some_iff.mp hb with ⟨old, hold, heq⟩
  split at heq
  · next hk =>
      subst hk
      exact Or.inr ⟨rfl, old, hold, heq.symm⟩
  · next hk => exact Or.inl ⟨fun hbk => hk hbk.symm, heq ▸ hold⟩

theorem mem_setStage {st : Stage} (hr : r ∈ (g.setStage k st).runs) :
    r ∈ g.runs ∨ exists old, g.runs[k]? = some old ∧ r = { old with stage := st } := by
  rcases List.getElem?_of_mem hr with ⟨b, hb⟩
  rcases getElem?_of_setStage hb with ⟨_, hb⟩ | ⟨_, hold⟩
  · exact Or.inl (List.mem_of_getElem? hb)
  · exact Or.inr hold

theorem slots_setStage
    (hslots : forall (a b : Nat) (r r' : MigrateSlot),
      g.runs[a]? = some r -> g.runs[b]? = some r' ->
      r.Active -> r'.Active -> r.slot = r'.slot -> a = b)
    {st : Stage} (hk : g.runs[k]? = some r)
    (hactive : r.Active) (a b : Nat) (r1 r2 : MigrateSlot)
    (h1 : (g.setStage k st).runs[a]? = some r1)
    (h2 : (g.setStage k st).runs[b]? = some r2)
    (hr1 : r1.Active) (hr2 : r2.Active) (hslot : r1.slot = r2.slot) : a = b := by
  have hold : forall (c : Nat) (x : MigrateSlot),
      (g.setStage k st).runs[c]? = some x -> x.Active ->
      exists old, g.runs[c]? = some old ∧ old.Active ∧ old.slot = x.slot := by
    intro c x hx hxa
    rcases getElem?_of_setStage hx with ⟨_, hget⟩ | ⟨rfl, old, hold, rfl⟩
    · exact ⟨x, hget, hxa, rfl⟩
    · rw [hk] at hold
      cases hold
      exact ⟨r, hk, hactive, rfl⟩
  rcases hold a r1 h1 hr1 with ⟨o1, hg1, ha1, hs1⟩
  rcases hold b r2 h2 hr2 with ⟨o2, hg2, ha2, hs2⟩
  exact hslots a b o1 o2 hg1 hg2 ha1 ha2 (hs1.trans (hslot.trans hs2.symm))

theorem live_setStage {st : Stage} (hst : forall z, st.live = some z -> g.Live z)
    (hy : (g.setStage k st).Live y) : g.Live y := by
  rcases hy with hmap | ⟨r, hr, hlive⟩ | hlate
  · exact Or.inl hmap
  · rcases mem_setStage hr with hr | ⟨old, _, rfl⟩
    · exact live_run hr hlive
    · exact hst y hlive
  · exact Or.inr (Or.inr hlate)

theorem live_publish {purpose : Purpose} {todo : Finset Nat} {reached : Nat} {failed : Bool}
    (hy : ((g.setShardMap i x).setStage k
      (.distributing purpose x todo reached failed)).Live y) : y = x ∨ g.Live y := by
  rcases hy with ⟨j, hj, rfl⟩ | ⟨r, hr, hlive⟩ | hlate
  · rcases setShardMap_cases g i x with ⟨heq, _⟩ | ⟨heq, _⟩
    · rw [heq] at hj ⊢
      exact Or.inr (live_map hj)
    · rw [heq] at hj ⊢
      by_cases hji : j = i
      · rw [hji]
        exact Or.inl (Function.update_self ..)
      · exact Or.inr (Or.inl ⟨j, hj, Function.update_of_ne hji ..⟩)
  · rcases mem_setStage hr with hr | ⟨old, _, rfl⟩
    · rw [setShardMap_runs] at hr
      exact Or.inr (live_run hr hlive)
    · cases hlive
      exact Or.inl rfl
  · have hsame : (g.setShardMap i x).late = g.late := by
      rcases setShardMap_cases g i x with ⟨heq, _⟩ | ⟨heq, _⟩
      · rw [heq]
      · rw [heq]
    change exists z, z ∈ (g.setShardMap i x).late ∧ z.2 = y at hlate
    rw [hsame] at hlate
    exact Or.inr (Or.inr (Or.inr hlate))

theorem RunOK.mono (h : RunOK g r) (hpeers : g'.peers = g.peers)
    (hmaps : g'.maps = g.maps) (hlive : forall y, g'.Live y -> g.Live y) :
    RunOK g' r := by
  constructor
  · rw [hpeers]
    exact h.node_mem
  · rw [hmaps]
    exact h.planned
  · exact h.freeze
  · intro m hm y hy
    exact h.held m hm y (hlive y hy)
  · rw [hpeers, hmaps]
    exact h.covered
  · rw [hpeers, hmaps]
    exact h.published

theorem Inv.setStage (h : g.Inv) {st : Stage} (hk : g.runs[k]? = some r)
    (hactive : r.Active) (hst : forall z, st.live = some z -> g.Live z)
    (hok : RunOK g { r with stage := st }) : (g.setStage k st).Inv := by
  have hlive : forall y, (g.setStage k st).Live y -> g.Live y :=
    fun y hy => live_setStage hst hy
  constructor
  · intro y z hy hz
    exact h.chain y z (hlive y hy) (hlive z hz)
  · intro x hx
    rcases mem_setStage hx with hx | ⟨old, hold, rfl⟩
    · exact (h.runs x hx).mono rfl rfl hlive
    · rw [hk] at hold
      cases hold
      exact hok.mono rfl rfl hlive
  · exact slots_setStage h.slots hk hactive

theorem RunOK.plan (h : RunOK g r) {purpose : Purpose} (c : Change)
    (htarget : c.target = r.slot) (hm : m = c.apply (g.maps r.node))
    (hfreeze : purpose = .freeze -> m.isMigrating r.slot = true) :
    RunOK g { r with stage := .planned purpose m } := by
  constructor
  · exact h.node_mem
  · intro p m' heq _
    cases heq
    exact ⟨c, g.maps r.node, htarget, hm, Derived.refl _⟩
  · intro m' heq
    cases heq
    exact hfreeze rfl
  · intro m' heq
    cases heq
  · intro p m' todo reached failed heq
    cases heq
  · rintro m' (heq | heq)
    · cases heq
    · cases heq

theorem RunOK.idle (hnode : r.node ∈ g.peers) {st : Stage}
    (hst : st = .failed ∨ exists m, st = .planned .republish m) :
    RunOK g { r with stage := st } := by
  rcases hst with rfl | ⟨m, rfl⟩
  · constructor
    · exact hnode
    · intro p m heq
      cases heq
    · intro m heq
      cases heq
    · intro m heq
      cases heq
    · intro p m todo reached failed heq
      cases heq
    · rintro m (heq | heq)
      · cases heq
      · cases heq
  · constructor
    · exact hnode
    · intro p m heq hp
      cases heq
      exact absurd rfl hp
    · intro m heq
      cases heq
    · intro m heq
      cases heq
    · intro p m todo reached failed heq
      cases heq
    · rintro m (heq | heq)
      · cases heq
      · cases heq

theorem RunOK.fail (h : RunOK g r) : RunOK g { r with stage := .failed } :=
  RunOK.idle h.node_mem (Or.inl rfl)

theorem Inv.derived_of_covered (h : g.Inv) (hr : r ∈ g.runs) {purpose : Purpose}
    {reached : Nat} (hstage : r.stage = .distributing purpose m ∅ reached false) :
    forall i, i ∈ g.peers -> Derived m (g.maps i) := by
  intro i hi
  have hlive : g.Live m := live_run hr (by rw [hstage]; rfl)
  rcases (h.runs r hr).covered _ _ _ _ _ hstage i hi (Finset.notMem_empty i) with
    hf | hle
  · cases hf
  · exact h.chain _ _ hlive (live_map hi) hle

theorem RunOK.flipped (h : RunOK g r)
    (hderived : forall i, i ∈ g.peers -> Derived m (g.maps i)) :
    RunOK g { r with stage := .flipped m } :=
  { h.fail with
    planned := fun _ _ heq => by cases heq
    freeze := fun _ heq => by cases heq
    held := fun _ heq => by cases heq
    covered := fun _ _ _ _ _ heq => by cases heq
    published := by
      rintro m' (heq | heq)
      · cases heq
      · cases heq
        exact hderived }

theorem RunOK.frozen (h : RunOK g r)
    (hheld : forall y, g.Live y -> m.epoch ≤ y.epoch -> y.isMigrating r.slot = true)
    (hderived : forall i, i ∈ g.peers -> Derived m (g.maps i)) :
    RunOK g { r with stage := .frozen m } :=
  { h.fail with
    planned := fun _ _ heq => by cases heq
    freeze := fun _ heq => by cases heq
    held := by
      intro m' heq
      cases heq
      exact hheld
    covered := fun _ _ _ _ _ heq => by cases heq
    published := by
      rintro m' (heq | heq)
      · cases heq
        exact hderived
      · cases heq }

theorem Inv.report (h : g.Inv) (hk : g.runs[k]? = some r)
    (hok : g.report k r = .ok g') : g'.Inv := by
  have hr := List.mem_of_getElem? hk
  have hrun := h.runs r hr
  rw [Publish.report] at hok
  split at hok
  · next purpose m todo reached failed hstage =>
      have hactive : r.Active := by
        rw [MigrateSlot.Active, hstage]
        exact True.intro
      have hnone : forall {st : Stage}, st.live = none ->
          RunOK g { r with stage := st } -> (g.setStage k st).Inv := by
        intro st hst hst'
        refine h.setStage hk hactive (fun z hz => ?_) hst'
        rw [hst] at hz
        cases hz
      split at hok
      · cases hok
      · next htodo =>
          rw [not_not.mp htodo] at hstage
          split at hok
          · next hdone =>
              rw [hdone.left] at hstage
              have hderived := h.derived_of_covered hr hstage
              cases purpose with
              | freeze =>
                  cases hok
                  have hheld := hrun.held m (by rw [hstage]; rfl)
                  exact hnone rfl (hrun.frozen hheld hderived)
              | flip | republish =>
                  cases hok
                  exact hnone rfl (hrun.flipped hderived)
              | rollback =>
                  cases hok
                  exact hnone rfl hrun.fail
          · cases purpose with
            | freeze =>
                cases hok
                exact hnone rfl (hrun.plan (.freeze r.slot false) rfl rfl
                  fun heq => by cases heq)
            | flip | republish | rollback =>
                cases hok
                exact hnone rfl hrun.fail
  · cases hok

theorem Inv.copied (h : g.Inv) (hk : g.runs[k]? = some r) {ok : Bool}
    (hok : g.copied k r ok = .ok g') : g'.Inv := by
  have hrun := h.runs r (List.mem_of_getElem? hk)
  rw [Publish.copied] at hok
  split at hok
  · next m hstage =>
      have hactive : r.Active := by
        rw [MigrateSlot.Active, hstage]
        exact True.intro
      split at hok
      · cases hok
        exact h.setStage hk hactive (fun z hz => by cases hz)
          (hrun.plan (.assign r.slot r.dst) rfl rfl fun heq => by cases heq)
      · cases hok
        exact h.setStage hk hactive (fun z hz => by cases hz)
          (hrun.plan (.freeze r.slot false) rfl rfl fun heq => by cases heq)
  · cases hok

theorem RunOK.distributing (h : RunOK g r) {purpose : Purpose} {todo : Finset Nat}
    {reached : Nat} {failed : Bool}
    (hheld : purpose = .freeze ->
      forall y, g.Live y -> m.epoch ≤ y.epoch -> y.isMigrating r.slot = true)
    (hcovered : forall i, i ∈ g.peers -> i ∉ todo ->
      failed = true ∨ m.epoch ≤ (g.maps i).epoch) :
    RunOK g { r with stage := .distributing purpose m todo reached failed } := by
  constructor
  · exact h.node_mem
  · intro p m' heq
    cases heq
  · intro m' heq
    cases heq
  · intro m' heq
    cases purpose with
    | freeze =>
        cases heq
        exact hheld rfl
    | flip | republish | rollback => cases heq
  · intro p m' todo' reached' failed' heq
    cases heq
    exact hcovered
  · rintro m' (heq | heq)
    · cases heq
    · cases heq

theorem live_late {peer : Nat} (hm : g.Live m)
    (hy : Live { g with late := g.late ++ [(peer, m)] } y) : g.Live y := by
  rcases hy with hmap | hrun | ⟨x, hx, rfl⟩
  · exact Or.inl hmap
  · exact Or.inr (Or.inl hrun)
  · rcases List.mem_append.mp hx with hx | hx
    · exact Or.inr (Or.inr ⟨x, hx, rfl⟩)
    · rw [List.mem_singleton.mp hx]
      exact hm

theorem Inv.late (h : g.Inv) (hm : g.Live m) (peer : Nat) :
    Inv { g with late := g.late ++ [(peer, m)] } := by
  constructor
  · intro y z hy hz
    exact h.chain y z (live_late hm hy) (live_late hm hz)
  · intro r hr
    exact (h.runs r hr).mono rfl rfl fun y hy => live_late hm hy
  · exact h.slots

theorem Inv.updateShardMap (h : g.Inv) (hk : g.runs[k]? = some r) {peer : Nat}
    {ok : Bool} (hok : g.updateShardMap k r peer ok = .ok g') : g'.Inv := by
  have hr := List.mem_of_getElem? hk
  rw [Publish.updateShardMap] at hok
  split at hok
  · next purpose m todo reached failed hstage =>
      have hactive : r.Active := by
        rw [MigrateSlot.Active, hstage]
        exact True.intro
      have hm : g.Live m := live_run hr (by rw [hstage]; rfl)
      split at hok
      · cases hok
      · split at hok
        · cases hok
          have h' := h.setShardMap hm peer
          have hk' : (g.setShardMap peer m).runs[k]? = some r := by
            rw [setShardMap_runs]
            exact hk
          have hrun := h'.runs r (List.mem_of_getElem? hk')
          apply h'.setStage hk' hactive
          · intro z hz
            cases hz
            exact live_run (List.mem_of_getElem? hk') (by rw [hstage]; rfl)
          · apply hrun.distributing
            · rintro rfl
              exact hrun.held m (by rw [hstage]; rfl)
            · intro i hi hit
              by_cases hip : i = peer
              · subst hip
                exact Or.inr epoch_le_setShardMap
              · exact hrun.covered _ _ _ _ _ hstage i hi
                  fun hmem => hit (Finset.mem_erase.mpr ⟨hip, hmem⟩)
        · cases hok
          have hrun := h.runs r hr
          have hlive : forall z,
              (Stage.distributing purpose m (todo.erase peer) reached true).live = some z ->
                g.Live z := by
            intro z hz
            cases hz
            exact hm
          have h' := h.setStage hk hactive hlive (hrun.distributing
            (by rintro rfl; exact hrun.held m (by rw [hstage]; rfl))
            (fun _ _ _ => Or.inl rfl))
          exact h'.late (live_run (List.mem_of_getElem? (getElem?_setStage hk)) rfl) peer
  · cases hok

/-!
### A new map is published
-/

/-- A map derived from the newest map of all extends the line of maps. -/
theorem Inv.chain_change (h : g.Inv) (hi : i ∈ g.peers) {c : Change}
    (hnew : g.Outdates (c.apply (g.maps i))) (hx : g.Live x) :
    Derived x (c.apply (g.maps i)) := by
  have hlt := hnew.epoch_lt hx
  rw [Change.epoch_apply] at hlt
  exact (h.chain _ _ hx (live_map hi) (Nat.le_of_lt_succ hlt)).change c

theorem Inv.held_change (h : g.Inv) (hk : g.runs[k]? = some r) (hactive : r.Active)
    (hnone : r.stage.holds = none) {c : Change} (htarget : c.target = r.slot)
    (hnew : g.Outdates (c.apply (g.maps r.node))) {r' : MigrateSlot}
    (hr' : r' ∈ g.runs) (hm : r'.stage.holds = some m) :
    (c.apply (g.maps r.node)).isMigrating r'.slot = true := by
  have hnode := live_map (h.runs r (List.mem_of_getElem? hk)).node_mem
  have hok := h.runs r' hr'
  rcases List.getElem?_of_mem hr' with ⟨b, hb⟩
  -- The two runs are different and in progress, so their slots differ.
  have hactive' : r'.Active := by
    rcases r' with ⟨node, slot, src, dst, stage⟩
    cases stage with
    | planned p x | distributing p x todo reached failed | frozen x => exact True.intro
    | flipped x | failed => cases hm
  have hslot : r'.slot ≠ c.target := by
    rw [htarget]
    intro heq
    have hbk := h.slots b k r' r hb hk hactive' hactive heq
    rw [hbk, hk] at hb
    cases hb
    rw [hnone] at hm
    cases hm
  -- The freeze is older than the map its slot's freeze is copied from.
  have hle : m.epoch ≤ (g.maps r.node).epoch := by
    cases hstage : r'.stage with
    | planned p x =>
        rw [hstage] at hm
        cases hm
    | distributing p x todo reached failed =>
        have hx : g.Live x := live_run hr' (by rw [hstage]; rfl)
        rw [hstage] at hm
        have hlt := hnew.epoch_lt hx
        rw [Change.epoch_apply] at hlt
        cases p with
        | freeze =>
            cases hm
            exact Nat.le_of_lt_succ hlt
        | flip => cases hm
        | republish => cases hm
        | rollback => cases hm
    | frozen x =>
        rw [hstage] at hm
        cases hm
        have hnode := (h.runs r (List.mem_of_getElem? hk)).node_mem
        exact (hok.published m (Or.inl hstage) _ hnode).epoch_le
    | flipped x | failed =>
        rw [hstage] at hm
        cases hm
  rw [Change.isMigrating_apply c _ hslot]
  exact hok.held m hm _ hnode hle

theorem Inv.publish (h : g.Inv) (hk : g.runs[k]? = some r) {purpose : Purpose}
    {todo : Finset Nat} {reached : Nat}
    (hstage : r.stage = .planned purpose m) (hpurpose : purpose ≠ .republish)
    (hnew : g.Outdates m) (htodo : forall i, i ∈ g.peers -> i ∉ todo -> i = r.node) :
    ((g.setShardMap r.node m).setStage k
      (.distributing purpose m todo reached false)).Inv := by
  have hrun := h.runs r (List.mem_of_getElem? hk)
  have hactive : r.Active := by
    rw [MigrateSlot.Active, hstage]
    exact True.intro
  have hnone : r.stage.holds = none := by rw [hstage]; rfl
  have hfreeze : purpose = .freeze -> m.isMigrating r.slot = true := by
    rintro rfl
    exact hrun.freeze m hstage
  have hnode := hrun.node_mem
  -- The node still has the map that the new one was derived from.
  rcases hrun.planned purpose m hstage hpurpose with ⟨c, cur, htarget, rfl, hd⟩
  have hcur : g.maps r.node = cur := by
    have hlt := hnew.epoch_lt (live_map hnode)
    rw [Change.epoch_apply] at hlt
    exact hd.eq_of_epoch_le (Nat.le_of_lt_succ hlt)
  subst hcur
  have hlast : forall y, g.Live y -> Derived y (c.apply (g.maps r.node)) :=
    fun y hy => h.chain_change hnode hnew hy
  have hheld : forall r' m', r' ∈ g.runs -> r'.stage.holds = some m' ->
      (c.apply (g.maps r.node)).isMigrating r'.slot = true :=
    fun r' m' hr' hm' => h.held_change hk hactive hnone htarget hnew hr' hm'
  have hset : g.setShardMap r.node (c.apply (g.maps r.node)) =
      { g with maps := Function.update g.maps r.node (c.apply (g.maps r.node)) } :=
    if_neg (Nat.not_le.mpr (hnew.epoch_lt (live_map hnode)))
  have hmaps : forall j, j ∈ g.peers -> Derived (g.maps j)
      (Function.update g.maps r.node (c.apply (g.maps r.node)) j) := by
    intro j hj
    by_cases hjn : j = r.node
    · rw [hjn, Function.update_self]
      exact hlast _ (live_map hnode)
    · rw [Function.update_of_ne hjn]
      exact Derived.refl _
  have hlive : forall y, Live ((g.setShardMap r.node (c.apply (g.maps r.node))).setStage k
      (.distributing purpose (c.apply (g.maps r.node)) todo reached false)) y ->
      y = c.apply (g.maps r.node) ∨ g.Live y :=
    fun y hy => live_publish hy
  rw [hset] at hlive ⊢
  generalize c.apply (g.maps r.node) = x at *
  constructor
  · intro y z hy hz hle
    rcases hlive y hy with rfl | hy'
    · rcases hlive z hz with rfl | hz'
      · exact Derived.refl _
      · exact absurd hle (Nat.not_le.mpr (hnew.epoch_lt hz'))
    · rcases hlive z hz with rfl | hz'
      · exact hlast y hy'
      · exact h.chain y z hy' hz' hle
  · intro r' hr'
    rcases mem_setStage hr' with hr' | ⟨old, hold, rfl⟩
    · have hok := h.runs r' hr'
      constructor
      · exact hok.node_mem
      · intro p m' hm' hp
        rcases hok.planned p m' hm' hp with ⟨c', cur, htarget', heq, hd'⟩
        exact ⟨c', cur, htarget', heq, hd'.trans (hmaps _ hok.node_mem)⟩
      · exact hok.freeze
      · intro m' hm' y hy hle
        rcases hlive y hy with rfl | hy
        · exact hheld r' m' hr' hm'
        · exact hok.held m' hm' y hy hle
      · intro p m' todo' reached' failed' hm' j hj hjt
        rcases hok.covered p m' todo' reached' failed' hm' j hj hjt with hf | hle
        · exact Or.inl hf
        · exact Or.inr (Nat.le_trans hle (hmaps j hj).epoch_le)
      · intro m' hm' j hj
        exact (hok.published m' hm' j hj).trans (hmaps j hj)
    · have hold' : g.runs[k]? = some old := hold
      rw [hk] at hold'
      cases hold'
      constructor
      · exact hnode
      · intro p m' heq
        cases heq
      · intro m' heq
        cases heq
      · intro m' heq y hy hle
        cases purpose with
        | freeze =>
            cases heq
            rcases hlive y hy with rfl | hy
            · exact hfreeze rfl
            · exact absurd hle (Nat.not_le.mpr (hnew.epoch_lt hy))
        | flip | republish | rollback => cases heq
      · intro p m' todo' reached' failed' heq j hj hjt
        cases heq
        rw [htodo j hj hjt]
        change false = true ∨ x.epoch ≤ (Function.update g.maps r.node x r.node).epoch
        rw [Function.update_self]
        exact Or.inr (Nat.le_refl _)
      · rintro m' (heq | heq)
        · cases heq
        · cases heq
  · exact slots_setStage h.slots hk hactive

theorem Inv.distribute (h : g.Inv) (hk : g.runs[k]? = some r)
    (hnew : g.Newest (.distribute k)) (hok : g.distribute k r = .ok g') : g'.Inv := by
  have hrun := h.runs r (List.mem_of_getElem? hk)
  rw [Publish.distribute] at hok
  split at hok
  · next purpose m hstage =>
      have hactive : r.Active := by
        rw [MigrateSlot.Active, hstage]
        exact True.intro
      have htodo : forall i, i ∈ g.peers -> i ∉ g.peers.erase r.node -> i = r.node := by
        intro i hi hit
        by_contra hne
        exact hit (Finset.mem_erase.mpr ⟨hne, hi⟩)
      by_cases hpurpose : purpose = .republish
      · subst hpurpose
        cases hok
        have hm : g.Live m := live_run (List.mem_of_getElem? hk) (by rw [hstage]; rfl)
        have h' := h.setShardMap hm r.node
        have hk' : (g.setShardMap r.node m).runs[k]? = some r := by
          rw [setShardMap_runs]
          exact hk
        have hmem := List.mem_of_getElem? hk'
        apply h'.setStage hk' hactive
        · intro z hz
          cases hz
          exact live_run hmem (by rw [hstage]; rfl)
        · apply (h'.runs r hmem).distributing
          · intro heq
            cases heq
          · intro i hi hit
            rw [setShardMap_peers] at hi hit
            rw [htodo i hi hit]
            exact Or.inr epoch_le_setShardMap
      · have hout : g.Outdates m := by
          apply hnew r hk m
          rw [hstage]
          cases purpose with
          | freeze | flip => exact rfl
          | republish => exact absurd rfl hpurpose
          | rollback => exact rfl
        cases hok
        rw [setShardMap_peers]
        exact h.publish hk hstage hpurpose hout htodo
  · cases hok

theorem live_start {new : MigrateSlot} (hnode : new.node ∈ g.peers)
    (hst : forall z, new.stage.live = some z -> z = g.maps new.node)
    (hy : Live { g with runs := g.runs ++ [new] } y) : g.Live y := by
  rcases hy with hmap | ⟨r, hr, hlive⟩ | hlate
  · exact Or.inl hmap
  · rcases List.mem_append.mp hr with hr | hr
    · exact live_run hr hlive
    · rw [List.mem_singleton.mp hr] at hlive
      rw [hst y hlive]
      exact live_map hnode
  · exact Or.inr (Or.inr hlate)

theorem slots_start {new : MigrateSlot}
    (hslots : forall (a b : Nat) (r r' : MigrateSlot),
      g.runs[a]? = some r -> g.runs[b]? = some r' ->
      r.Active -> r'.Active -> r.slot = r'.slot -> a = b)
    (hslot : forall r, r ∈ g.runs -> r.Active -> r.slot ≠ new.slot)
    (a b : Nat) (r1 r2 : MigrateSlot) (h1 : (g.runs ++ [new])[a]? = some r1)
    (h2 : (g.runs ++ [new])[b]? = some r2) (hr1 : r1.Active) (hr2 : r2.Active)
    (heq : r1.slot = r2.slot) : a = b := by
  rw [List.getElem?_append] at h1 h2
  split at h1
  · split at h2
    · exact hslots a b r1 r2 h1 h2 hr1 hr2 heq
    · have hr := List.mem_singleton.mp (List.mem_of_getElem? h2)
      rw [hr] at heq
      exact absurd heq (hslot r1 (List.mem_of_getElem? h1) hr1)
  · have hr := List.mem_singleton.mp (List.mem_of_getElem? h1)
    split at h2
    · rw [hr] at heq
      exact absurd heq.symm (hslot r2 (List.mem_of_getElem? h2) hr2)
    · have ha := (List.getElem?_eq_some_iff.mp h1).choose
      have hb := (List.getElem?_eq_some_iff.mp h2).choose
      rw [List.length_singleton] at ha hb
      lia

theorem Inv.migrateSlot (h : g.Inv) {node : Nat} {slot : Slot} {src dst : Nat}
    (hnode : node ∈ g.peers)
    (hslot : forall r, r ∈ g.runs -> r.Active -> r.slot ≠ slot)
    (hok : g.migrateSlot node slot src dst = .ok g') : g'.Inv := by
  have hstart : forall st : Stage, (forall z, st.live = some z -> z = g.maps node) ->
      RunOK g { node := node, slot := slot, src := src, dst := dst, stage := st } ->
      Inv { g with
        runs := g.runs ++
          [{ node := node, slot := slot, src := src, dst := dst, stage := st }] } := by
    intro st hst hrun
    have hlive : forall y, Live { g with
        runs := g.runs ++
          [{ node := node, slot := slot, src := src, dst := dst, stage := st }] } y ->
        g.Live y := fun y hy => live_start hnode hst hy
    constructor
    · intro y z hy hz
      exact h.chain y z (hlive y hy) (hlive z hz)
    · intro r hr
      rcases List.mem_append.mp hr with hr | hr
      · exact (h.runs r hr).mono rfl rfl hlive
      · rw [List.mem_singleton.mp hr]
        exact hrun.mono rfl rfl hlive
    · exact slots_start h.slots hslot
  have hidle : forall st, (st = .failed ∨ exists m, st = .planned .republish m) ->
      RunOK g { node := node, slot := slot, src := src, dst := dst, stage := st } :=
    fun st hst => RunOK.idle (r := ⟨node, slot, src, dst, .failed⟩) hnode hst
  rw [Publish.migrateSlot] at hok
  split at hok
  · cases hok
  · dsimp only at hok
    split at hok
    · cases hok
      apply hstart
      · intro z hz
        cases hz
        rfl
      · exact hidle _ (Or.inr ⟨_, rfl⟩)
    · split at hok
      · cases hok
      · cases hok
        apply hstart
        · intro z hz
          cases hz
        · apply (hidle .failed (Or.inl rfl)).plan (.freeze slot true) rfl rfl
          intro _
          exact Function.update_self ..

theorem onRun_eq_ok {f : MigrateSlot -> Except Refused Publish} (h : g.onRun k f = .ok g') :
    exists r, g.runs[k]? = some r ∧ f r = .ok g' := by
  unfold onRun at h
  split at h
  · next r hk => exact ⟨r, hk, h⟩
  · cases h

theorem Inv.exec (h : g.Inv) {a : PublishAction} (hallowed : g.Allowed a)
    (hnew : g.Newest a) (hok : g.exec a = .ok g') : g'.Inv := by
  cases a with
  | migrateSlot node slot src dst =>
      exact h.migrateSlot hallowed.left hallowed.right hok
  | distribute k =>
      rcases onRun_eq_ok hok with ⟨r, hk, hr⟩
      exact h.distribute hk hnew hr
  | updateShardMap k peer ok =>
      rcases onRun_eq_ok hok with ⟨r, hk, hr⟩
      exact h.updateShardMap hk hr
  | report k =>
      rcases onRun_eq_ok hok with ⟨r, hk, hr⟩
      exact h.report hk hr
  | copied k ok =>
      rcases onRun_eq_ok hok with ⟨r, hk, hr⟩
      exact h.copied hk hr
  | arrive call =>
      dsimp only [Publish.exec] at hok
      split at hok
      · next x hx =>
          cases hok
          exact h.setShardMap (Or.inr (Or.inr ⟨x, List.mem_of_getElem? hx, rfl⟩)) x.1
      · cases hok

/-!
## Whole runs
-/

def Initial (g : Publish) : Prop :=
  (forall i j, i ∈ g.peers -> j ∈ g.peers -> g.maps i = g.maps j) ∧
    g.runs = [] ∧ g.late = []

theorem Inv.initial (h : g.Initial) : g.Inv := by
  rcases h with ⟨hmaps, hruns, hlate⟩
  have hlive : forall y, g.Live y -> exists i, i ∈ g.peers ∧ y = g.maps i := by
    rintro y (hmap | ⟨r, hr, _⟩ | ⟨x, hx, _⟩)
    · exact hmap
    · rw [hruns] at hr
      cases hr
    · rw [hlate] at hx
      cases hx
  constructor
  · intro x y hx hy _
    rcases hlive x hx with ⟨i, hi, rfl⟩
    rcases hlive y hy with ⟨j, hj, rfl⟩
    rw [hmaps i j hi hj]
    exact Derived.refl _
  · intro r hr
    rw [hruns] at hr
    cases hr
  · intro a b r r' ha
    rw [hruns] at ha
    cases ha

/-- In every run whose new maps are each newer than all maps there are when
they are first published, a change that was reported published is in force. -/
theorem inForce_of_newest {g0 : Publish} (h0 : g0.Initial)
    (h : Reach exec (fun g a => g.Allowed a ∧ g.Newest a) g0 g) : g.InForce := by
  have hinv : g.Inv := by
    refine h.invariant ?_ (Inv.initial h0)
    intro g a g' hg hguard hok
    exact hg.exec hguard.left hguard.right hok
  exact hinv.inForce

def two : Publish where
  peers := {1, 2}
  maps := fun _ => { epoch := 1, slots := fun _ => 1, migrating := fun _ => false }

theorem initial_two : two.Initial :=
  ⟨fun _ _ _ _ => rfl, rfl, rfl⟩

/-- Node 1 moves slot 0; the call that carries the flip fails and arrives late.
The retry at node 2 publishes the flip again. -/
def retriedFlip : List PublishAction :=
  [.migrateSlot 1 0 1 2, .distribute 0, .updateShardMap 0 2 true, .report 0,
    .copied 0 true, .distribute 0, .updateShardMap 0 2 false, .report 0, .arrive 0,
    .migrateSlot 2 0 1 2, .distribute 1, .updateShardMap 1 1 true, .report 1]

theorem inForce_retriedFlip :
    exists g, runWhile exec (fun g a => g.Allowed a ∧ g.Newest a) retriedFlip two = .ok g ∧
      g.runs.map MigrateSlot.stage =
        [.failed, .flipped (((two.maps 1).withMigrating 0 true).withSlot 0 2)] ∧
      g.InForce := by
  have hrun : okWith
      (runWhile exec (fun g a => g.Allowed a ∧ g.Newest a) retriedFlip two)
      (fun g => g.runs.map MigrateSlot.stage =
        [.failed, .flipped (((two.maps 1).withMigrating 0 true).withSlot 0 2)]) := by
    decide +kernel
  rcases exists_of_okWith hrun with ⟨g, hok, hcheck⟩
  exact ⟨g, hok, of_decide_eq_true hcheck,
    inForce_of_newest initial_two (Reach.of_runWhile hok)⟩

/-- Both nodes freeze a slot, starting from the same map.  Each finds the other
at its own epoch. -/
def equalEpochs : List PublishAction :=
  [.migrateSlot 1 0 1 2, .migrateSlot 2 1 1 2, .distribute 0, .distribute 1,
    .updateShardMap 0 2 true, .updateShardMap 1 1 true, .report 0, .report 1]

/-- Both freezes are reported published, neither is in force on both nodes,
and two maps have one epoch. -/
theorem not_inForce_equalEpochs :
    exists g, Reach exec Allowed two g ∧
      g.runs.map MigrateSlot.stage =
        [.frozen ((two.maps 1).withMigrating 0 true),
          .frozen ((two.maps 2).withMigrating 1 true)] ∧
      (g.maps 1).epoch = (g.maps 2).epoch ∧ g.maps 1 ≠ g.maps 2 ∧
      (g.maps 2).isMigrating 0 = false ∧ (g.maps 1).isMigrating 1 = false ∧
      ¬ g.InForce := by
  have hrun : okWith (runWhile exec Allowed equalEpochs two)
      (fun g => 1 ∈ g.peers ∧ 2 ∈ g.peers ∧
        g.runs.map MigrateSlot.stage =
          [.frozen ((two.maps 1).withMigrating 0 true),
            .frozen ((two.maps 2).withMigrating 1 true)] ∧
        (g.maps 1).epoch = (g.maps 2).epoch ∧
        (g.maps 1).isMigrating 0 = true ∧
        (g.maps 2).isMigrating 0 = false ∧ (g.maps 1).isMigrating 1 = false) := by
    decide +kernel
  rcases exists_of_okWith hrun with ⟨g, hok, hcheck⟩
  rcases of_decide_eq_true hcheck with ⟨h1, h2, hstages, hepoch, hm1, hm2, hm1'⟩
  have hne : g.maps 1 ≠ g.maps 2 := by
    intro heq
    rw [heq, hm2] at hm1
    cases hm1
  exact ⟨g, Reach.of_runWhile hok, hstages, hepoch, hne, hm2, hm1',
    fun hforce => hne (hforce.agree 1 2 h1 h2 hepoch)⟩

end Publish

end Shard
end Basalt
