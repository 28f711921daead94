import Basalt.Cluster.FrontDoor
import Basalt.Shard.Ownership

/-!
# Serving under shard maps

A node routes every request by the map it has.  It adopts newer maps only, but
the map is kept in memory: a node that is started again serves under the map of
its configuration.  A write reads the map once; until its entry is appended, only
the freeze of its slot is checked again.
-/

namespace Basalt
namespace Cluster

open Lib Shard ShardMap Relation

/-- A write that was routed to a group its node leads, and waits for the loop of
the group. -/
structure Request where
  node : Nat
  key : Bytes
  map : ShardMap
deriving DecidableEq

def Request.gid (w : Request) : Nat :=
  w.map.lookup w.key

structure Fleet extends Publish where
  writes : List Request := []

inductive FleetAction where
  /-- A step of a run of `MigrateSlot`. -/
  | migrate (a : PublishAction)
  /-- A map is pushed to a node, or adopted there. -/
  | setShardMap (node : Nat) (m : ShardMap)
  /-- The process of a node ends; the node is opened again and serves with the map of
  its configuration. -/
  | serveSharded (node : Nat) (m : ShardMap)
  /-- A write comes in on a node that leads the group of its key. -/
  | write (node : Nat) (key : Bytes) (routed : Option Nat)
  /-- The loop of the group takes a write up. -/
  | append (write : Nat)

inductive ServeError where
  | refused (e : Refused)
  | status (e : Status)
  | noWrite
deriving DecidableEq

def FleetAction.started : FleetAction -> Option (Slot × Nat)
  | .migrate a => Publish.started a
  | _ => none

namespace Fleet

def context (f : Fleet) (node : Nat) (routed : Option Nat) : ShardKV.Context where
  map := f.maps node
  routed := routed
  leads := fun _ => true
  forwardTarget := fun _ => false
  guardMap := f.maps node

/-- The part of a write that the caller runs. -/
def write (f : Fleet) (node : Nat) (key : Bytes) (routed : Option Nat) :
    Except Status Fleet := do
  validKey key
  let _ <- ShardKV.route (f.context node routed) key
  pure { f with writes := f.writes ++ [{ node := node, key := key, map := f.maps node }] }

/-- The part of a write that the loop of the group runs. -/
def append (f : Fleet) (write : Nat) (w : Request) : Except Status Fleet := do
  ShardKV.freezeGuard (f.context w.node none) w.key
  pure { f with writes := f.writes.eraseIdx write }

def exec (f : Fleet) : FleetAction -> Except ServeError Fleet
  | .migrate a => do
      let g <- (f.toPublish.exec a).mapError .refused
      pure { f with toPublish := g }
  | .setShardMap node m => pure { f with toPublish := f.toPublish.setShardMap node m }
  | .serveSharded node m =>
      pure
        { toPublish := f.toPublish.restart node m
          writes := f.writes.filter fun w => w.node ≠ node }
  | .write node key routed => (f.write node key routed).mapError .status
  | .append k =>
      match f.writes[k]? with
      | some w => (f.append k w).mapError .status
      | none => .error .noWrite

/-- A node is started with a map no older than the one it had, and adopts no map while
a write that it has routed waits to be appended. -/
def KeepsEpochs (f : Fleet) : FleetAction -> Prop
  | .migrate a => forall g, f.toPublish.exec a = .ok g ->
      forall w, w ∈ f.writes -> g.maps w.node = f.maps w.node
  | .setShardMap node m => forall w, w ∈ f.writes ->
      (f.toPublish.setShardMap node m).maps w.node = f.maps w.node
  | .serveSharded node m => (f.maps node).epoch ≤ m.epoch
  | .write _ _ _ | .append _ => True

open scoped Evaluate in
instance (f : Fleet) : (a : FleetAction) -> Decidable (f.KeepsEpochs a)
  | .migrate a => inferInstanceAs (Decidable (forall g, f.toPublish.exec a = .ok g ->
      forall w, w ∈ f.writes -> g.maps w.node = f.maps w.node))
  | .setShardMap node m => inferInstanceAs (Decidable (forall w, w ∈ f.writes ->
      (f.toPublish.setShardMap node m).maps w.node = f.maps w.node))
  | .serveSharded node m => inferInstanceAs (Decidable ((f.maps node).epoch ≤ m.epoch))
  | .write _ _ _ | .append _ => .isTrue True.intro

/-- The runs publish newest maps only, and no other maps are in circulation. -/
def OneLine (f : Fleet) : FleetAction -> Prop
  | .migrate a => f.toPublish.Allowed a ∧ f.toPublish.Newest a ∧ f.toPublish.Latest a
  | .setShardMap _ m => f.toPublish.Live m
  | .serveSharded node m => node ∈ f.peers ∧ f.toPublish.Live m
  | _ => True

instance (f : Fleet) (m : ShardMap) : Decidable (f.toPublish.Live m) :=
  inferInstanceAs (Decidable (_ ∨ _ ∨ _))

instance (f : Fleet) : (a : FleetAction) -> Decidable (f.OneLine a)
  | .migrate _ => inferInstanceAs (Decidable (_ ∧ _ ∧ _))
  | .setShardMap _ m => inferInstanceAs (Decidable (f.toPublish.Live m))
  | .serveSharded _ _ => inferInstanceAs (Decidable (_ ∧ _))
  | .write _ _ _ | .append _ => .isTrue True.intro

def Steady (f : Fleet) (a : FleetAction) : Prop :=
  f.KeepsEpochs a ∧ f.OneLine a

instance (f : Fleet) (a : FleetAction) : Decidable (f.Steady a) :=
  inferInstanceAs (Decidable (_ ∧ _))

def Initial (f : Fleet) : Prop :=
  f.toPublish.Initial ∧ f.writes = []

variable {f f' : Fleet} {a : FleetAction}

theorem toPublish_write {node : Nat} {key : Bytes} {routed : Option Nat}
    (hok : f.exec (.write node key routed) = .ok f') : f'.toPublish = f.toPublish := by
  rcases bind_eq_ok.mp (mapError_eq_ok.mp hok) with ⟨_, _, hrest⟩
  rcases bind_eq_ok.mp hrest with ⟨_, _, hpure⟩
  cases hpure
  rfl

theorem toPublish_append {k : Nat} (hok : f.exec (.append k) = .ok f') :
    f'.toPublish = f.toPublish := by
  dsimp only [exec] at hok
  split at hok
  · rcases bind_eq_ok.mp (mapError_eq_ok.mp hok) with ⟨_, _, hpure⟩
    cases hpure
    rfl
  · cases hok

/-!
## Epochs
-/

theorem epoch_le_exec (hkeeps : f.KeepsEpochs a) (hok : f.exec a = .ok f') (i : Nat) :
    (f.maps i).epoch ≤ (f'.maps i).epoch := by
  cases a with
  | migrate a =>
      rcases bind_eq_ok.mp hok with ⟨g, hg, hpure⟩
      cases hpure
      exact Publish.epoch_le_exec (mapError_eq_ok.mp hg) i
  | setShardMap node m =>
      cases hok
      exact Publish.epoch_setShardMap_mono i
  | serveSharded node m =>
      cases hok
      show (f.maps i).epoch ≤ (Function.update f.maps node m i).epoch
      by_cases hi : i = node
      · rw [hi, Function.update_self]
        exact hkeeps
      · rw [Function.update_of_ne hi]
  | write node key routed =>
      rw [toPublish_write hok]
  | append k =>
      rw [toPublish_append hok]

theorem epoch_le_of_reach (h : Reach exec KeepsEpochs f f') (i : Nat) :
    (f.maps i).epoch ≤ (f'.maps i).epoch := by
  refine h.invariant (I := fun x => (f.maps i).epoch ≤ (x.maps i).epoch) ?_ (Nat.le_refl _)
  intro x a x' hx hguard hok
  exact Nat.le_trans hx (epoch_le_exec hguard hok i)

def Routed (f : Fleet) : Prop :=
  forall w, w ∈ f.writes -> w.map = f.maps w.node

theorem Routed.exec (h : f.Routed) (hkeeps : f.KeepsEpochs a) (hok : f.exec a = .ok f') :
    f'.Routed := by
  cases a with
  | migrate a =>
      rcases bind_eq_ok.mp hok with ⟨g, hg, hpure⟩
      cases hpure
      exact fun w hw => (h w hw).trans (hkeeps g (mapError_eq_ok.mp hg) w hw).symm
  | setShardMap node m =>
      cases hok
      exact fun w hw => (h w hw).trans (hkeeps w hw).symm
  | serveSharded node m =>
      cases hok
      intro w hw
      rcases List.mem_filter.mp hw with ⟨hw, hne⟩
      show w.map = Function.update f.maps node m w.node
      rw [Function.update_of_ne (of_decide_eq_true hne)]
      exact h w hw
  | write node key routed =>
      rcases bind_eq_ok.mp (mapError_eq_ok.mp hok) with ⟨_, _, hrest⟩
      rcases bind_eq_ok.mp hrest with ⟨_, _, hpure⟩
      cases hpure
      intro w hw
      rcases List.mem_append.mp hw with hw | hw
      · exact h w hw
      · rw [List.mem_singleton.mp hw]
  | append k =>
      dsimp only [Fleet.exec] at hok
      split at hok
      · rcases bind_eq_ok.mp (mapError_eq_ok.mp hok) with ⟨_, _, hpure⟩
        cases hpure
        exact fun w hw => h w (List.mem_of_mem_eraseIdx hw)
      · cases hok

theorem Routed.reach (h : f.Routed) (hreach : Reach Fleet.exec KeepsEpochs f f') : f'.Routed :=
  hreach.invariant (fun _ _ _ hx hkeeps hok => hx.exec hkeeps hok) h

theorem Routed.initial (h : f.Initial) : f.Routed := by
  intro w hw
  rw [h.right] at hw
  cases hw

theorem keepsEpochs_report (f : Fleet) (run : Nat) : f.KeepsEpochs (.migrate (.report run)) := by
  intro g hg w _
  dsimp only [Publish.exec, Publish.onRun] at hg
  split at hg
  · unfold Publish.report at hg
    repeat' split at hg
    all_goals cases hg <;> rfl
  · cases hg

/-!
## Owners
-/

theorem restart_eq {g : Publish} (howns : g.Owns) {node : Nat} {m : ShardMap}
    (hnode : node ∈ g.peers) (hm : g.Live m) (hle : (g.maps node).epoch ≤ m.epoch) :
    g.restart node m = (g.setShardMap node m).failRuns node := by
  have hd := howns.chain _ _ (Publish.live_map hnode) hm hle
  rcases Publish.setShardMap_cases g node m with ⟨heq, hback⟩ | ⟨heq, _⟩
  · rw [heq, hd.eq_of_epoch_le hback]
    unfold Publish.restart
    rw [Function.update_eq_self]
  · rw [heq]
    rfl

theorem moves_exec (hsteady : f.Steady a) (howns : f.toPublish.Owns) (hok : f.exec a = .ok f') :
    Publish.Moves a.started f.toPublish f'.toPublish := by
  rcases hsteady with ⟨hkeeps, hline⟩
  cases a with
  | migrate a =>
      rcases bind_eq_ok.mp hok with ⟨g, hg, hpure⟩
      cases hpure
      exact Publish.moves_exec hline.left hline.right.left hline.right.right
        (mapError_eq_ok.mp hg)
  | setShardMap node m =>
      cases hok
      exact ReflTransGen.single (Publish.Move.adopt hline)
  | serveSharded node m =>
      cases hok
      show Publish.Moves none f.toPublish (f.toPublish.restart node m)
      rw [restart_eq howns hline.left hline.right hkeeps]
      exact (ReflTransGen.single (Publish.Move.adopt hline.right)).tail Publish.Move.fail
  | write node key routed =>
      rw [toPublish_write hok]
  | append k =>
      rw [toPublish_append hok]

theorem inv_exec (hsteady : f.Steady a) (howns : f.toPublish.Owns) (hinv : f.toPublish.Inv)
    (hok : f.exec a = .ok f') : f'.toPublish.Inv := by
  rcases hsteady with ⟨hkeeps, hline⟩
  cases a with
  | migrate a =>
      rcases bind_eq_ok.mp hok with ⟨g, hg, hpure⟩
      cases hpure
      exact hinv.exec hline.left hline.right.left (mapError_eq_ok.mp hg)
  | setShardMap node m =>
      cases hok
      exact hinv.setShardMap hline node
  | serveSharded node m =>
      cases hok
      show (f.toPublish.restart node m).Inv
      rw [restart_eq howns hline.left hline.right hkeeps]
      exact (hinv.setShardMap hline.right node).failRuns node
  | write node key routed =>
      rw [toPublish_write hok]
      exact hinv
  | append k =>
      rw [toPublish_append hok]
      exact hinv

theorem owns_of_reach {start : Fleet} (hstart : start.Initial) (h : Reach exec Steady start f) :
    f.toPublish.Owns ∧ f.toPublish.Inv := by
  refine h.invariant (I := fun x => x.toPublish.Owns ∧ x.toPublish.Inv) ?_
    ⟨Publish.Owns.initial hstart.left, Publish.Inv.initial hstart.left⟩
  rintro x a x' ⟨howns, hinv⟩ hsteady hok
  exact ⟨howns.moves (moves_exec hsteady howns hok), inv_exec hsteady howns hinv hok⟩

theorem away_of_reach {slot : Slot} {group epoch : Nat} (howns : f.toPublish.Owns)
    (haway : f.toPublish.Away slot group epoch)
    (h : Reach exec (fun x a => x.Steady a ∧ a.started ≠ some (slot, group)) f f') :
    f'.toPublish.Away slot group epoch := by
  refine (h.invariant (I := fun x => x.toPublish.Owns ∧ x.toPublish.Away slot group epoch) ?_
    ⟨howns, haway⟩).right
  rintro x a x' ⟨howns, haway⟩ hguard hok
  have hmoves := moves_exec hguard.left howns hok
  exact ⟨howns.moves hmoves, haway.moves howns hmoves hguard.right⟩

/-- In every run that keeps the epochs, no node goes back to a smaller epoch or
accepts a write that was routed under one.  In every run that is steady, once
`MigrateSlot` has published its flip no node gives the slot to the source or
accepts a write to it there, until a run moves the slot back. -/
theorem epochs_forward (hreach : Reach exec KeepsEpochs f f') :
    ((forall i, (f.maps i).epoch ≤ (f'.maps i).epoch) ∧
      forall start : Fleet, start.Initial -> Reach exec KeepsEpochs start f ->
        forall w, w ∈ f'.writes -> (f.maps w.node).epoch ≤ w.map.epoch) ∧
    forall (start before : Fleet) (run : Nat) (r : MigrateSlot) (m : ShardMap),
      start.Initial -> Reach exec Steady start before ->
      before.exec (.migrate (.report run)) = .ok f ->
      f.runs[run]? = some r -> r.stage = .flipped m ->
      Reach exec (fun x a => x.Steady a ∧ a.started ≠ some (r.slot, r.src)) f f' ->
      (forall i, i ∈ f'.peers -> (f'.maps i).group r.slot ≠ r.src) ∧
      forall w, w ∈ f'.writes -> w.node ∈ f'.peers -> keySlot w.key = r.slot ->
        w.gid ≠ r.src := by
  constructor
  · refine ⟨epoch_le_of_reach hreach, ?_⟩
    intro start hstart hbefore w hw
    rw [((Routed.initial hstart).reach hbefore).reach hreach w hw]
    exact epoch_le_of_reach hreach w.node
  · intro start before run r m hstart hbefore hok hrun hflip hlater
    rcases owns_of_reach hstart hbefore with ⟨howns, hinv⟩
    have hkeeps := keepsEpochs_report before run
    have hsteady : before.Steady (.migrate (.report run)) :=
      ⟨hkeeps, True.intro, True.intro, True.intro⟩
    have howns' := howns.moves (moves_exec hsteady howns hok)
    have hinv' := inv_exec hsteady howns hinv hok
    have hleft : f.toPublish.Away r.slot r.src m.epoch := by
      rcases bind_eq_ok.mp hok with ⟨g, hg, hpure⟩
      cases hpure
      exact howns.away_of_flipped hinv' (mapError_eq_ok.mp hg) hrun hflip
    have haway := away_of_reach howns' hleft hlater
    have hrouted : before.Routed :=
      (Routed.initial hstart).reach (hbefore.mono fun _ _ h => h.left)
    have hrouted' := (hrouted.exec hkeeps hok).reach hreach
    refine ⟨fun i hi => haway.not_served hi, ?_⟩
    intro w hw hnode hslot
    unfold Request.gid ShardMap.lookup
    rw [hrouted' w hw, hslot]
    exact haway.not_served hnode

/-!
## Runs
-/

def two : Fleet where
  toPublish := Publish.two

theorem initial_two : two.Initial :=
  ⟨Publish.initial_two, rfl⟩

def keyA : Bytes := [0x61]

/-- Node 1 moves the slot of a key; every node has adopted the flip. -/
def moveSlot : List FleetAction :=
  [.migrate (.migrateSlot 1 48 1 2), .migrate (.distribute 0),
    .migrate (.updateShardMap 0 2 true), .migrate (.report 0), .migrate (.copied 0 true),
    .migrate (.distribute 0), .migrate (.updateShardMap 0 2 true)]

def movedMap : ShardMap :=
  ((two.maps 1).withMigrating 48 true).withSlot 48 2

def handoff (guard guard' : Fleet -> FleetAction -> Prop)
    [forall x a, Decidable (guard x a)] [forall x a, Decidable (guard' x a)]
    (before : List FleetAction) (run : Nat) (after : List FleetAction) :
    Except ServeError (Fleet × Fleet × Fleet) := do
  let f <- runWhile exec guard before two
  let f1 <- f.exec (.migrate (.report run))
  let f' <- runWhile exec guard' after f1
  pure (f, f1, f')

theorem exists_of_handoff {guard guard' : Fleet -> FleetAction -> Prop}
    [forall x a, Decidable (guard x a)] [forall x a, Decidable (guard' x a)]
    {before after : List FleetAction} {run : Nat} {f1 : Fleet}
    (h : handoff guard guard' before run after = .ok (f, f1, f')) :
    Reach exec guard two f ∧ f.exec (.migrate (.report run)) = .ok f1 ∧
      Reach exec guard' f1 f' := by
  rcases bind_eq_ok.mp h with ⟨x, hx, hrest⟩
  rcases bind_eq_ok.mp hrest with ⟨x1, hx1, hrest⟩
  rcases bind_eq_ok.mp hrest with ⟨x', hx', hpure⟩
  cases hpure
  exact ⟨Reach.of_runWhile hx, hx1, Reach.of_runWhile hx'⟩

section

open scoped Evaluate

theorem epochs_forward_restarted :
    exists f f1 f' w, Reach exec Steady two f ∧ f.exec (.migrate (.report 0)) = .ok f1 ∧
      Reach exec (fun x a => x.Steady a ∧ a.started ≠ some (48, 1)) f1 f' ∧
      f'.maps 2 = movedMap ∧ f'.writes[0]? = some w ∧ keySlot w.key = 48 ∧
      (forall i, (f1.maps i).epoch ≤ (f'.maps i).epoch) ∧
      (f1.maps w.node).epoch ≤ w.map.epoch ∧
      (forall i, i ∈ f'.peers -> (f'.maps i).group 48 ≠ 1) ∧ w.gid ≠ 1 := by
  have hrun : okWith
      (handoff Steady (fun x a => x.Steady a ∧ a.started ≠ some (48, 1)) moveSlot 0
        [.serveSharded 2 movedMap, .write 2 keyA none])
      (fun x => decide (
        (exists r, x.2.1.runs[0]? = some r ∧ r.slot = 48 ∧ r.src = 1 ∧
          r.stage = .flipped movedMap) ∧
        (exists w, x.2.2.writes[0]? = some w ∧ keySlot w.key = 48 ∧ w.node ∈ x.2.2.peers) ∧
        x.2.2.maps 2 = movedMap)) := by
    decide +kernel
  rcases exists_of_okWith hrun with ⟨⟨f, f1, f'⟩, hhandoff, hcheck⟩
  rcases exists_of_handoff hhandoff with ⟨hreach, hreport, hlater⟩
  rcases of_decide_eq_true hcheck with
    ⟨⟨r, hr, hslot, hsrc, hflip⟩, ⟨w, hw, hkey, hnode⟩, hmap⟩
  rcases epochs_forward (hlater.mono fun _ _ h => h.left.left) with ⟨hforward, hflipped⟩
  have haway := hflipped two f 0 r movedMap initial_two hreach hreport hr hflip
    (by rw [hslot, hsrc]; exact hlater)
  rw [hslot, hsrc] at haway
  have hstart : Reach exec KeepsEpochs two f1 :=
    (hreach.mono fun _ _ h => h.left).step (keepsEpochs_report f 0) hreport
  have hmem := List.mem_of_getElem? hw
  exact ⟨f, f1, f', w, hreach, hreport, hlater, hmap, hw, hkey, hforward.left,
    hforward.right two initial_two hstart w hmem, haway.left, haway.right w hmem hnode hkey⟩

/-- A node that is started again serves a moved slot from its source; and a write
that was routed before the freeze is appended at the source after the flip. -/
theorem not_epochs_forward :
    (exists f f1 f' w, Reach exec (fun _ _ => True) two f ∧
      f.exec (.migrate (.report 0)) = .ok f1 ∧
      f1.runs.map MigrateSlot.stage = [.flipped movedMap] ∧
      Reach exec (fun _ _ => True) f1 f' ∧ (f'.maps 2).epoch < (f1.maps 2).epoch ∧
      (f'.maps 2).group 48 = 1 ∧ f'.writes = [w] ∧ keySlot w.key = 48 ∧ w.gid = 1 ∧
      exists f'', f'.exec (.append 0) = .ok f'') ∧
    (exists f f1 w, Reach exec (fun _ _ => True) two f ∧
      f.exec (.migrate (.report 0)) = .ok f1 ∧
      f1.runs.map MigrateSlot.stage = [.flipped movedMap] ∧
      (forall i, i ∈ f1.peers -> (f1.maps i).group 48 = 2) ∧
      f1.writes = [w] ∧ keySlot w.key = 48 ∧ w.map.epoch < (f1.maps w.node).epoch ∧
      w.gid = 1 ∧ exists f'', f1.exec (.append 0) = .ok f'') := by
  have hrestart : okWith
      (handoff (fun _ _ => True) (fun _ _ => True) moveSlot 0
        [.serveSharded 2 (two.maps 2), .write 2 keyA none])
      (fun x => decide (
        x.2.1.runs.map MigrateSlot.stage = [.flipped movedMap] ∧
        (x.2.2.maps 2).epoch < (x.2.1.maps 2).epoch ∧ (x.2.2.maps 2).group 48 = 1 ∧
        x.2.2.writes = [{ node := 2, key := keyA, map := two.maps 2 }] ∧
        exists f'', x.2.2.exec (.append 0) = .ok f'')) := by
    decide +kernel
  have hstalled : okWith
      (handoff (fun _ _ => True) (fun _ _ => True) (.write 1 keyA none :: moveSlot) 0 [])
      (fun x => decide (
        x.2.1.runs.map MigrateSlot.stage = [.flipped movedMap] ∧
        (forall i, i ∈ x.2.1.peers -> (x.2.1.maps i).group 48 = 2) ∧
        x.2.1.writes = [{ node := 1, key := keyA, map := two.maps 1 }] ∧
        1 < (x.2.1.maps 1).epoch ∧ exists f'', x.2.1.exec (.append 0) = .ok f'')) := by
    decide +kernel
  have hkey : keySlot keyA = 48 := by decide +kernel
  have hgid : (two.maps 1).lookup keyA = 1 := rfl
  constructor
  · rcases exists_of_okWith hrestart with ⟨⟨f, f1, f'⟩, hhandoff, hcheck⟩
    rcases exists_of_handoff hhandoff with ⟨hreach, hreport, hlater⟩
    rcases of_decide_eq_true hcheck with ⟨hstage, hepoch, hgroup, hwrites, happend⟩
    exact ⟨f, f1, f', _, hreach, hreport, hstage, hlater, hepoch, hgroup, hwrites, hkey, hgid,
      happend⟩
  · rcases exists_of_okWith hstalled with ⟨⟨f, f1, f'⟩, hhandoff, hcheck⟩
    rcases exists_of_handoff hhandoff with ⟨hreach, hreport, _⟩
    rcases of_decide_eq_true hcheck with ⟨hstage, hgroup, hwrites, hepoch, happend⟩
    exact ⟨f, f1, _, hreach, hreport, hstage, hgroup, hwrites, hkey, hepoch, hgid, happend⟩

end

end Fleet

end Cluster
end Basalt
