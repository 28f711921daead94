import Basalt.Shard.Publish

/-!
# Owners of slots

What an action of a publication does is a sequence of a few moves: a node adopts
a map, a call is delayed, a run takes its next stage, publishes a map, starts or
fails.  From each move follows what it does to the owners of the slots: from the
map of a flip on, the slot belongs to the target, until another run moves it.
-/

namespace Basalt
namespace Shard

open Lib ShardMap Relation

/-!
## The moves of a publication
-/

namespace Publish

def settles : Stage -> Option ShardMap
  | .planned .republish m => some m
  | .distributing .flip m _ _ _ => some m
  | .distributing .republish m _ _ _ => some m
  | _ => none

inductive Next (g : Publish) (r : MigrateSlot) : Stage -> Prop where
  | republish {m : ShardMap} {todo : Finset Nat} {reached : Nat} {failed : Bool} :
      r.stage = .planned .republish m ->
      Next g r (.distributing .republish m todo reached failed)
  | call {purpose : Purpose} {m : ShardMap} {todo todo' : Finset Nat} {reached reached' : Nat}
      {failed failed' : Bool} :
      r.stage = .distributing purpose m todo reached failed ->
      Next g r (.distributing purpose m todo' reached' failed')
  | frozen {m : ShardMap} : Next g r (.frozen m)
  | flipped {purpose : Purpose} {m : ShardMap} {todo : Finset Nat} {reached : Nat}
      {failed : Bool} :
      r.stage = .distributing purpose m todo reached failed ->
      purpose = .flip ∨ purpose = .republish -> Next g r (.flipped m)
  | fail : Next g r .failed
  | rollback : Next g r (.planned .rollback ((g.maps r.node).withMigrating r.slot false))
  | flip : Next g r (.planned .flip ((g.maps r.node).withSlot r.slot r.dst))

/-- The process of a node ends with the runs it has in progress, and the node is
started with a map. -/
def failRuns (g : Publish) (node : Nat) : Publish :=
  { g with
    runs := g.runs.map fun r =>
      if r.node = node ∧ r.Active then { r with stage := .failed } else r }

def restart (g : Publish) (node : Nat) (m : ShardMap) : Publish :=
  { g with maps := Function.update g.maps node m }.failRuns node

/-- The changes an action is made of.  `started` are the slot and the target of the
run that it starts. -/
inductive Move (started : Option (Slot × Nat)) (g : Publish) : Publish -> Prop where
  | adopt {i : Nat} {x : ShardMap} : g.Live x -> Move started g (g.setShardMap i x)
  | delay {peer : Nat} {m : ShardMap} :
      g.Live m -> Move started g { g with late := g.late ++ [(peer, m)] }
  | stage {k : Nat} {r : MigrateSlot} {st : Stage} :
      g.runs[k]? = some r -> r.Active -> Next g r st -> Move started g (g.setStage k st)
  | publish {k : Nat} {r : MigrateSlot} {purpose : Purpose} {m : ShardMap}
      {todo : Finset Nat} {reached : Nat} :
      g.runs[k]? = some r -> r.stage = .planned purpose m -> purpose ≠ .republish ->
      g.Outdates m ->
      Move started g
        ((g.setShardMap r.node m).setStage k (.distributing purpose m todo reached false))
  | start {node : Nat} {slot : Slot} {src dst : Nat} {st : Stage} :
      started = some (slot, dst) -> node ∈ g.peers -> src ≠ dst ->
      (forall r, r ∈ g.runs -> r.Active -> r.slot ≠ slot) ->
      (st = .planned .republish (g.maps node) ∧ (g.maps node).group slot = dst ∧
        g.Outdates ((g.maps node).withMigrating slot true)) ∨
        st = .planned .freeze ((g.maps node).withMigrating slot true) ->
      Move started g
        { g with
          runs := g.runs ++
            [{ node := node, slot := slot, src := src, dst := dst, stage := st }] }
  | fail {node : Nat} : Move started g (g.failRuns node)

abbrev Moves (started : Option (Slot × Nat)) : Publish -> Publish -> Prop :=
  ReflTransGen (Move started)

/-- A run that finds its slot with the target already starts on a node that has the
newest map. -/
def Latest (g : Publish) : PublishAction -> Prop
  | .migrateSlot node slot _ dst =>
      (g.maps node).group slot = dst -> g.Outdates ((g.maps node).withMigrating slot true)
  | _ => True

instance (g : Publish) : (a : PublishAction) -> Decidable (g.Latest a)
  | .migrateSlot node slot _ dst =>
      inferInstanceAs (Decidable ((g.maps node).group slot = dst ->
        g.Outdates ((g.maps node).withMigrating slot true)))
  | .distribute _ | .updateShardMap _ _ _ | .report _ | .copied _ _ | .arrive _ =>
      .isTrue True.intro

def started : PublishAction -> Option (Slot × Nat)
  | .migrateSlot _ slot _ dst => some (slot, dst)
  | _ => none

variable {g g' : Publish} {m x y : ShardMap} {i k : Nat} {r : MigrateSlot} {a : PublishAction}
variable {new : Option (Slot × Nat)}

theorem active_of_planned {purpose : Purpose} (h : r.stage = .planned purpose m) : r.Active := by
  unfold MigrateSlot.Active
  rw [h]
  exact True.intro

theorem active_of_distributing {purpose : Purpose} {todo : Finset Nat} {reached : Nat}
    {failed : Bool} (h : r.stage = .distributing purpose m todo reached failed) : r.Active := by
  unfold MigrateSlot.Active
  rw [h]
  exact True.intro

theorem moves_distribute (hk : g.runs[k]? = some r) (hnew : g.Newest (.distribute k))
    (hok : g.distribute k r = .ok g') : Moves new g g' := by
  unfold Publish.distribute at hok
  split at hok
  · next purpose m hstage =>
      cases hok
      by_cases hpurpose : purpose = .republish
      · subst hpurpose
        have hlive : g.Live m := live_run (List.mem_of_getElem? hk) (by rw [hstage]; rfl)
        have hk' : (g.setShardMap r.node m).runs[k]? = some r := by
          rw [setShardMap_runs]
          exact hk
        exact (ReflTransGen.single (Move.adopt hlive)).tail
          (Move.stage hk' (active_of_planned hstage) (Next.republish hstage))
      · have hfresh : r.stage.fresh = some m := by
          rw [hstage]
          cases purpose with
          | freeze | flip => rfl
          | republish => exact absurd rfl hpurpose
          | rollback => rfl
        exact ReflTransGen.single (Move.publish hk hstage hpurpose (hnew r hk m hfresh))
  · cases hok

theorem moves_updateShardMap {peer : Nat} {ok : Bool} (hk : g.runs[k]? = some r)
    (hok : g.updateShardMap k r peer ok = .ok g') : Moves new g g' := by
  unfold Publish.updateShardMap at hok
  split at hok
  · next purpose m todo reached failed hstage =>
      have hactive := active_of_distributing hstage
      have hlive : g.Live m := live_run (List.mem_of_getElem? hk) (by rw [hstage]; rfl)
      split at hok
      · cases hok
      · split at hok
        · cases hok
          have hk' : (g.setShardMap peer m).runs[k]? = some r := by
            rw [setShardMap_runs]
            exact hk
          exact (ReflTransGen.single (Move.adopt hlive)).tail
            (Move.stage hk' hactive (Next.call hstage))
        · cases hok
          have hcalled : Move new g (g.setStage k
              (.distributing purpose m (todo.erase peer) reached true)) :=
            Move.stage hk hactive (Next.call hstage)
          refine (ReflTransGen.single hcalled).tail (Move.delay ?_)
          exact live_run (List.mem_of_getElem? (getElem?_setStage hk)) rfl
  · cases hok

theorem report_eq_ok (hok : g.report k r = .ok g') :
    exists st, g' = g.setStage k st ∧ r.Active ∧ Next g r st := by
  unfold Publish.report at hok
  split at hok
  · next purpose m todo reached failed hstage =>
      have hactive := active_of_distributing hstage
      split at hok
      · cases hok
      · split at hok
        · cases purpose with
          | freeze =>
              cases hok
              exact ⟨_, rfl, hactive, Next.frozen⟩
          | flip =>
              cases hok
              exact ⟨_, rfl, hactive, Next.flipped hstage (Or.inl rfl)⟩
          | republish =>
              cases hok
              exact ⟨_, rfl, hactive, Next.flipped hstage (Or.inr rfl)⟩
          | rollback =>
              cases hok
              exact ⟨_, rfl, hactive, Next.fail⟩
        · cases purpose with
          | freeze =>
              cases hok
              exact ⟨_, rfl, hactive, Next.rollback⟩
          | flip | republish | rollback =>
              cases hok
              exact ⟨_, rfl, hactive, Next.fail⟩
  · cases hok

theorem copied_eq_ok {ok : Bool} (hok : g.copied k r ok = .ok g') :
    exists st, g' = g.setStage k st ∧ r.Active ∧ Next g r st := by
  unfold Publish.copied at hok
  split at hok
  · next m hstage =>
      have hactive : r.Active := by
        unfold MigrateSlot.Active
        rw [hstage]
        exact True.intro
      split at hok
      · cases hok
        exact ⟨_, rfl, hactive, Next.flip⟩
      · cases hok
        exact ⟨_, rfl, hactive, Next.rollback⟩
  · cases hok

theorem moves_migrateSlot {node : Nat} {slot : Slot} {src dst : Nat}
    (hallowed : g.Allowed (.migrateSlot node slot src dst))
    (hlatest : g.Latest (.migrateSlot node slot src dst))
    (hok : g.migrateSlot node slot src dst = .ok g') : Moves (some (slot, dst)) g g' := by
  unfold Publish.migrateSlot at hok
  split at hok
  · cases hok
  · next hne =>
      dsimp only at hok
      split at hok
      · next hdst =>
          cases hok
          exact ReflTransGen.single (Move.start rfl hallowed.left hne hallowed.right
            (Or.inl ⟨rfl, hdst, hlatest hdst⟩))
      · split at hok
        · cases hok
        · cases hok
          exact ReflTransGen.single
            (Move.start rfl hallowed.left hne hallowed.right (Or.inr rfl))

theorem moves_exec (hallowed : g.Allowed a) (hnew : g.Newest a) (hlatest : g.Latest a)
    (hok : g.exec a = .ok g') : Moves (started a) g g' := by
  cases a with
  | migrateSlot node slot src dst => exact moves_migrateSlot hallowed hlatest hok
  | distribute k =>
      rcases onRun_eq_ok hok with ⟨r, hk, hr⟩
      exact moves_distribute hk hnew hr
  | updateShardMap k peer ok =>
      rcases onRun_eq_ok hok with ⟨r, hk, hr⟩
      exact moves_updateShardMap hk hr
  | report k =>
      rcases onRun_eq_ok hok with ⟨r, hk, hr⟩
      rcases report_eq_ok hr with ⟨st, rfl, hactive, hnext⟩
      exact ReflTransGen.single (Move.stage hk hactive hnext)
  | copied k ok =>
      rcases onRun_eq_ok hok with ⟨r, hk, hr⟩
      rcases copied_eq_ok hr with ⟨st, rfl, hactive, hnext⟩
      exact ReflTransGen.single (Move.stage hk hactive hnext)
  | arrive call =>
      dsimp only [Publish.exec] at hok
      split at hok
      · next late hlate =>
          cases hok
          exact ReflTransGen.single
            (Move.adopt (Or.inr (Or.inr ⟨late, List.mem_of_getElem? hlate, rfl⟩)))
      · cases hok

/-!
## Owners
-/

def Makes (r : MigrateSlot) (purpose : Purpose) (c : Change) : Prop :=
  match purpose with
  | .flip => c = .assign r.slot r.dst
  | _ => exists value, c = .freeze r.slot value

structure RunOwns (g : Publish) (r : MigrateSlot) : Prop where
  node_mem : r.node ∈ g.peers
  distinct : r.src ≠ r.dst
  planned : forall purpose m, r.stage = .planned purpose m -> purpose ≠ .republish ->
    exists c cur, Makes r purpose c ∧ m = c.apply cur ∧ Derived cur (g.maps r.node)
  /-- From the map of the flip on, the slot belongs to the target. -/
  owned : forall m, settles r.stage = some m ->
    forall y, g.Live y -> m.epoch ≤ y.epoch -> y.group r.slot = r.dst

structure Owns (g : Publish) : Prop where
  chain : forall x y, g.Live x -> g.Live y -> x.epoch ≤ y.epoch -> Derived x y
  slots : forall (a b : Nat) (r r' : MigrateSlot),
    g.runs[a]? = some r -> g.runs[b]? = some r' ->
    r.Active -> r'.Active -> r.slot = r'.slot -> a = b
  runs : forall r, r ∈ g.runs -> RunOwns g r

theorem target_of_makes {purpose : Purpose} {c : Change} (h : Makes r purpose c) :
    c.target = r.slot := by
  cases purpose with
  | flip =>
      cases h
      rfl
  | freeze | republish | rollback =>
      rcases h with ⟨_, rfl⟩
      rfl

theorem group_apply (c : Change) (m : ShardMap) {slot : Slot} (h : slot ≠ c.target) :
    (c.apply m).group slot = m.group slot := by
  cases c with
  | freeze s value => rfl
  | assign s group => exact Function.update_of_ne h _ _

theorem group_makes {purpose : Purpose} {c : Change} (h : Makes r purpose c) (m : ShardMap) :
    (c.apply m).group r.slot = m.group r.slot ∨ (c.apply m).group r.slot = r.dst := by
  cases purpose with
  | flip =>
      cases h
      exact Or.inr (Function.update_self ..)
  | freeze | republish | rollback =>
      rcases h with ⟨_, rfl⟩
      exact Or.inl rfl

theorem RunOwns.mono (h : RunOwns g r) (hpeers : g'.peers = g.peers)
    (hmaps : forall m, Derived m (g.maps r.node) -> Derived m (g'.maps r.node))
    (hlive : forall y, g'.Live y -> g.Live y) : RunOwns g' r := by
  refine ⟨?_, h.distinct, ?_, ?_⟩
  · rw [hpeers]
    exact h.node_mem
  · intro purpose m hm hp
    rcases h.planned purpose m hm hp with ⟨c, cur, hc, heq, hd⟩
    exact ⟨c, cur, hc, heq, hmaps cur hd⟩
  · intro m hm y hy
    exact h.owned m hm y (hlive y hy)

theorem active_of_settles (h : settles r.stage = some m) : r.Active := by
  rcases r with ⟨node, slot, src, dst, stage⟩
  cases stage with
  | planned p x | distributing p x todo reached failed => exact True.intro
  | frozen x | flipped x | failed => cases h

theorem live_of_settles (hr : r ∈ g.runs) (h : settles r.stage = some m) : g.Live m := by
  apply live_run hr
  cases hstage : r.stage with
  | planned p x =>
      rw [hstage] at h
      cases p with
      | republish => exact h
      | freeze => cases h
      | flip => cases h
      | rollback => cases h
  | distributing p x todo reached failed =>
      rw [hstage] at h
      cases p with
      | republish => exact h
      | flip => exact h
      | freeze => cases h
      | rollback => cases h
  | frozen x | flipped x | failed =>
      rw [hstage] at h
      cases h

namespace Owns

theorem adopt (h : g.Owns) (hx : g.Live x) (i : Nat) : (g.setShardMap i x).Owns := by
  refine ⟨?_, ?_, ?_⟩
  · intro y z hy hz
    exact h.chain y z (live_setShardMap hx hy) (live_setShardMap hx hz)
  · rw [setShardMap_runs]
    exact h.slots
  · intro r hr
    rw [setShardMap_runs] at hr
    have hrun := h.runs r hr
    exact hrun.mono setShardMap_peers
      (fun m hm => derived_setShardMap h.chain hx hrun.node_mem hm)
      fun y hy => live_setShardMap hx hy

theorem delay (h : g.Owns) (hm : g.Live m) (peer : Nat) :
    Owns { g with late := g.late ++ [(peer, m)] } := by
  constructor
  · intro y z hy hz
    exact h.chain y z (live_late hm hy) (live_late hm hz)
  · exact h.slots
  · intro r hr
    exact (h.runs r hr).mono rfl (fun _ hd => hd) fun y hy => live_late hm hy

end Owns

theorem Next.live {st : Stage} (h : Next g r st) (hr : r ∈ g.runs) (hx : st.live = some x) :
    g.Live x := by
  cases h with
  | republish hstage | call hstage =>
      cases hx
      exact live_run hr (by rw [hstage]; rfl)
  | frozen | flipped | fail | rollback | flip => cases hx

theorem Next.settles {st : Stage} (h : Next g r st) (hm : Publish.settles st = some m) :
    Publish.settles r.stage = some m := by
  cases h with
  | republish hstage =>
      rw [hstage]
      exact hm
  | @call purpose _ _ _ _ _ _ _ hstage =>
      rw [hstage]
      cases purpose with
      | freeze => cases hm
      | flip => exact hm
      | republish => exact hm
      | rollback => cases hm
  | frozen | flipped | fail | rollback | flip => cases hm

theorem RunOwns.next (h : RunOwns g r) {st : Stage} (hnext : Next g r st) :
    RunOwns g { r with stage := st } := by
  constructor
  · exact h.node_mem
  · exact h.distinct
  · intro purpose m heq hp
    change st = _ at heq
    subst heq
    cases hnext with
    | rollback => exact ⟨.freeze r.slot false, _, ⟨false, rfl⟩, rfl, Derived.refl _⟩
    | flip => exact ⟨.assign r.slot r.dst, _, rfl, rfl, Derived.refl _⟩
  · intro m hm
    exact h.owned m (hnext.settles hm)

namespace Owns

theorem stage (h : g.Owns) {st : Stage} (hk : g.runs[k]? = some r) (hactive : r.Active)
    (hnext : Next g r st) : (g.setStage k st).Owns := by
  have hr := List.mem_of_getElem? hk
  have hlive : forall y, (g.setStage k st).Live y -> g.Live y :=
    fun y hy => live_setStage (fun _ hz => hnext.live hr hz) hy
  constructor
  · intro y z hy hz
    exact h.chain y z (hlive y hy) (hlive z hz)
  · exact slots_setStage h.slots hk hactive
  · intro r' hr'
    rcases mem_setStage hr' with hr' | ⟨old, hold, rfl⟩
    · exact (h.runs r' hr').mono rfl (fun _ hd => hd) hlive
    · rw [hk] at hold
      cases hold
      exact ((h.runs r hr).next hnext).mono rfl (fun _ hd => hd) hlive

theorem fresh (h : g.Owns) (hk : g.runs[k]? = some r) {purpose : Purpose}
    (hstage : r.stage = .planned purpose m) (hpurpose : purpose ≠ .republish)
    (hnew : g.Outdates m) :
    exists c, Makes r purpose c ∧ m = c.apply (g.maps r.node) ∧
      forall y, g.Live y -> y.epoch ≤ (g.maps r.node).epoch := by
  have hrun := h.runs r (List.mem_of_getElem? hk)
  rcases hrun.planned purpose m hstage hpurpose with ⟨c, cur, hc, rfl, hd⟩
  have hcur : g.maps r.node = cur := by
    have hlt := hnew.epoch_lt (live_map hrun.node_mem)
    rw [Change.epoch_apply] at hlt
    exact hd.eq_of_epoch_le (Nat.le_of_lt_succ hlt)
  subst hcur
  refine ⟨c, hc, rfl, ?_⟩
  intro y hy
  have hlt := hnew.epoch_lt hy
  rw [Change.epoch_apply] at hlt
  exact Nat.le_of_lt_succ hlt

theorem publish (h : g.Owns) (hk : g.runs[k]? = some r) {purpose : Purpose}
    {todo : Finset Nat} {reached : Nat} (hstage : r.stage = .planned purpose m)
    (hpurpose : purpose ≠ .republish) (hnew : g.Outdates m) :
    ((g.setShardMap r.node m).setStage k (.distributing purpose m todo reached false)).Owns := by
  have hrun := h.runs r (List.mem_of_getElem? hk)
  have hactive := active_of_planned hstage
  rcases h.fresh hk hstage hpurpose hnew with ⟨c, hc, heq, hlast⟩
  have hderived : forall y, g.Live y -> Derived y m := by
    intro y hy
    rw [heq]
    exact (h.chain _ _ hy (live_map hrun.node_mem) (hlast y hy)).change c
  have hlive : forall y, ((g.setShardMap r.node m).setStage k
      (.distributing purpose m todo reached false)).Live y -> y = m ∨ g.Live y :=
    fun y hy => live_publish hy
  have hk' : (g.setShardMap r.node m).runs[k]? = some r := by
    rw [setShardMap_runs]
    exact hk
  have hpeers : (g.setShardMap r.node m).peers = g.peers := setShardMap_peers
  constructor
  · intro y z hy hz hle
    rcases hlive z hz with rfl | hz'
    · rcases hlive y hy with rfl | hy'
      · exact Derived.refl _
      · exact hderived y hy'
    · rcases hlive y hy with rfl | hy'
      · exact absurd hle (Nat.not_le.mpr (hnew.epoch_lt hz'))
      · exact h.chain y z hy' hz' hle
  · refine slots_setStage ?_ hk' hactive
    rw [setShardMap_runs]
    exact h.slots
  · intro r' hr'
    rcases List.getElem?_of_mem hr' with ⟨b, hb⟩
    rcases getElem?_of_setStage hb with ⟨hbk, hb'⟩ | ⟨_, old, hold, rfl⟩
    · rw [setShardMap_runs] at hb'
      have hrun' := h.runs r' (List.mem_of_getElem? hb')
      constructor
      · exact hpeers ▸ hrun'.node_mem
      · exact hrun'.distinct
      · intro p x hx hp
        rcases hrun'.planned p x hx hp with ⟨c', cur, hc', heq', hd⟩
        exact ⟨c', cur, hc', heq',
          derived_adopt (fun _ => hderived _ (live_map hrun'.node_mem)) hd⟩
      · intro x hx y hy hle
        rcases hlive y hy with rfl | hy'
        · -- Another run publishes, of another slot, what it made of a map past the flip.
          have hslot : r'.slot ≠ c.target := by
            rw [target_of_makes hc]
            intro hslot
            exact hbk (h.slots b k r' r hb' hk (active_of_settles hx) hactive hslot)
          rw [heq, group_apply c _ hslot]
          exact hrun'.owned x hx _ (live_map hrun.node_mem)
            (hlast x (live_of_settles (List.mem_of_getElem? hb') hx))
        · exact hrun'.owned x hx y hy' hle
    · rw [hk'] at hold
      cases hold
      constructor
      · exact hpeers ▸ hrun.node_mem
      · exact hrun.distinct
      · intro p x hx
        cases hx
      · intro x hx y hy hle
        cases purpose with
        | freeze => cases hx
        | republish => exact absurd rfl hpurpose
        | rollback => cases hx
        | flip =>
            cases hx
            rcases hlive y hy with rfl | hy'
            · cases hc
              rw [heq]
              exact Function.update_self ..
            · exact absurd hle (Nat.not_le.mpr (hnew.epoch_lt hy'))

theorem start (h : g.Owns) {node : Nat} {slot : Slot} {src dst : Nat} {st : Stage}
    (hnode : node ∈ g.peers) (hne : src ≠ dst)
    (hslot : forall r, r ∈ g.runs -> r.Active -> r.slot ≠ slot)
    (hst : (st = .planned .republish (g.maps node) ∧ (g.maps node).group slot = dst ∧
        g.Outdates ((g.maps node).withMigrating slot true)) ∨
      st = .planned .freeze ((g.maps node).withMigrating slot true)) :
    Owns
      { g with
        runs := g.runs ++
          [{ node := node, slot := slot, src := src, dst := dst, stage := st }] } := by
  have hlive : forall y,
      Live
        { g with
          runs := g.runs ++
            [{ node := node, slot := slot, src := src, dst := dst, stage := st }] } y ->
        g.Live y := by
    intro y hy
    refine live_start hnode ?_ hy
    intro z hz
    rcases hst with ⟨rfl, _⟩ | rfl
    · cases hz
      rfl
    · cases hz
  constructor
  · intro y z hy hz
    exact h.chain y z (hlive y hy) (hlive z hz)
  · exact slots_start h.slots hslot
  · intro r hr
    rcases List.mem_append.mp hr with hr | hr
    · exact (h.runs r hr).mono rfl (fun _ hd => hd) hlive
    · rw [List.mem_singleton.mp hr]
      rcases hst with ⟨rfl, hdst, hnew⟩ | rfl
      · constructor
        · exact hnode
        · exact hne
        · intro p x hx hp
          cases hx
          exact absurd rfl hp
        · intro x hx y hy hle
          cases hx
          -- No map is newer than that of the node.
          have hlt : y.epoch < (g.maps node).epoch + 1 := hnew.epoch_lt (hlive y hy)
          have hd := h.chain _ _ (live_map hnode) (hlive y hy) hle
          rw [hd.eq_of_epoch_le (Nat.le_of_lt_succ hlt)]
          exact hdst
      · constructor
        · exact hnode
        · exact hne
        · intro p x hx _
          cases hx
          exact ⟨.freeze slot true, _, ⟨true, rfl⟩, rfl, Derived.refl _⟩
        · intro x hx
          cases hx

end Owns

/-!
### The runs of a node fail
-/

theorem getElem?_of_failRuns {node b : Nat} (hb : (g.failRuns node).runs[b]? = some r) :
    g.runs[b]? = some r ∨
      exists old, g.runs[b]? = some old ∧ r = { old with stage := .failed } := by
  unfold failRuns at hb
  rw [List.getElem?_map] at hb
  rcases Option.map_eq_some_iff.mp hb with ⟨old, hold, heq⟩
  split at heq
  · exact Or.inr ⟨old, hold, heq.symm⟩
  · exact Or.inl (heq ▸ hold)

theorem mem_failRuns {node : Nat} (hr : r ∈ (g.failRuns node).runs) :
    r ∈ g.runs ∨ exists old, old ∈ g.runs ∧ r = { old with stage := .failed } := by
  rcases List.getElem?_of_mem hr with ⟨b, hb⟩
  rcases getElem?_of_failRuns hb with hb | ⟨old, hold, heq⟩
  · exact Or.inl (List.mem_of_getElem? hb)
  · exact Or.inr ⟨old, List.mem_of_getElem? hold, heq⟩

theorem live_failRuns {node : Nat} (hy : (g.failRuns node).Live y) : g.Live y := by
  rcases hy with hmap | ⟨r, hr, hlive⟩ | hlate
  · exact Or.inl hmap
  · rcases mem_failRuns hr with hr | ⟨old, _, rfl⟩
    · exact live_run hr hlive
    · cases hlive
  · exact Or.inr (Or.inr hlate)

theorem slots_failRuns
    (hslots : forall (a b : Nat) (r r' : MigrateSlot),
      g.runs[a]? = some r -> g.runs[b]? = some r' ->
      r.Active -> r'.Active -> r.slot = r'.slot -> a = b)
    (node a b : Nat) (r1 r2 : MigrateSlot) (h1 : (g.failRuns node).runs[a]? = some r1)
    (h2 : (g.failRuns node).runs[b]? = some r2) (hr1 : r1.Active) (hr2 : r2.Active)
    (hslot : r1.slot = r2.slot) : a = b := by
  rcases getElem?_of_failRuns h1 with h1 | ⟨_, _, rfl⟩
  · rcases getElem?_of_failRuns h2 with h2 | ⟨_, _, rfl⟩
    · exact hslots a b r1 r2 h1 h2 hr1 hr2 hslot
    · exact absurd hr2 not_false
  · exact absurd hr1 not_false

theorem Inv.failRuns (h : g.Inv) (node : Nat) : (g.failRuns node).Inv := by
  constructor
  · intro y z hy hz
    exact h.chain y z (live_failRuns hy) (live_failRuns hz)
  · intro r hr
    rcases mem_failRuns hr with hr | ⟨old, hold, rfl⟩
    · exact (h.runs r hr).mono rfl rfl fun y hy => live_failRuns hy
    · exact (h.runs old hold).fail.mono rfl rfl fun y hy => live_failRuns hy
  · exact slots_failRuns h.slots node

theorem Owns.failRuns (h : g.Owns) (node : Nat) : (g.failRuns node).Owns := by
  constructor
  · intro y z hy hz
    exact h.chain y z (live_failRuns hy) (live_failRuns hz)
  · exact slots_failRuns h.slots node
  · intro r hr
    rcases mem_failRuns hr with hr | ⟨old, hold, rfl⟩
    · exact (h.runs r hr).mono rfl (fun _ hd => hd) fun y hy => live_failRuns hy
    · exact ((h.runs old hold).next Next.fail).mono rfl (fun _ hd => hd)
        fun y hy => live_failRuns hy

theorem Owns.move (h : g.Owns) (hmove : Move new g g') : g'.Owns := by
  cases hmove with
  | adopt hx => exact h.adopt hx _
  | delay hm => exact h.delay hm _
  | stage hk hactive hnext => exact h.stage hk hactive hnext
  | publish hk hstage hpurpose hnew => exact h.publish hk hstage hpurpose hnew
  | start _ hnode hne hslot hst => exact h.start hnode hne hslot hst
  | fail => exact h.failRuns _

theorem Owns.moves (h : g.Owns) (hmoves : Moves new g g') : g'.Owns := by
  induction hmoves with
  | refl => exact h
  | tail _ hmove ih => exact ih.move hmove

theorem Owns.initial (h : g.Initial) : g.Owns := by
  have hinv := Inv.initial h
  refine ⟨hinv.chain, hinv.slots, ?_⟩
  intro r hr
  rw [h.right.left] at hr
  cases hr

/-!
## A slot that has left a group
-/

/-- No node gives the slot to the group, and nothing under way will. -/
structure Away (g : Publish) (slot : Slot) (group epoch : Nat) : Prop where
  live : forall y, g.Live y -> epoch ≤ y.epoch -> y.group slot ≠ group
  runs : forall r, r ∈ g.runs -> r.Active -> r.slot = slot -> r.dst ≠ group
  maps : forall i, i ∈ g.peers -> epoch ≤ (g.maps i).epoch

namespace Away

variable {slot : Slot} {group epoch : Nat}

theorem not_served (h : g.Away slot group epoch) (hi : i ∈ g.peers) :
    (g.maps i).group slot ≠ group :=
  h.live _ (live_map hi) (h.maps i hi)

theorem move (h : g.Away slot group epoch) (howns : g.Owns) (hmove : Move new g g')
    (hback : new ≠ some (slot, group)) : g'.Away slot group epoch := by
  cases hmove with
  | @adopt i x hx =>
      constructor
      · intro y hy
        exact h.live y (live_setShardMap hx hy)
      · rw [setShardMap_runs]
        exact h.runs
      · rw [setShardMap_peers]
        intro j hj
        exact Nat.le_trans (h.maps j hj) (epoch_setShardMap_mono j)
  | delay hm =>
      constructor
      · intro y hy
        exact h.live y (live_late hm hy)
      · exact h.runs
      · exact h.maps
  | @stage k r st hk hactive hnext =>
      have hr := List.mem_of_getElem? hk
      constructor
      · intro y hy
        exact h.live y (live_setStage (fun _ hz => hnext.live hr hz) hy)
      · intro r' hr' ha hslot
        rcases mem_setStage hr' with hr' | ⟨old, hold, rfl⟩
        · exact h.runs r' hr' ha hslot
        · rw [hk] at hold
          cases hold
          exact h.runs r hr hactive hslot
      · exact h.maps
  | @publish k r purpose m todo reached hk hstage hpurpose hnew =>
      have hr := List.mem_of_getElem? hk
      have hnode := (howns.runs r hr).node_mem
      rcases howns.fresh hk hstage hpurpose hnew with ⟨c, hc, heq, _⟩
      constructor
      · intro y hy hle
        rcases live_publish hy with hym | hy'
        · rw [hym, heq]
          by_cases hslot : r.slot = slot
          · rcases group_makes hc (g.maps r.node) with hsame | hdst
            · rw [← hslot, hsame, hslot]
              exact h.not_served hnode
            · rw [← hslot, hdst]
              exact h.runs r hr (active_of_planned hstage) hslot
          · rw [group_apply c _ (by rw [target_of_makes hc]; exact fun hs => hslot hs.symm)]
            exact h.not_served hnode
        · exact h.live y hy' hle
      · intro r' hr' ha hslot
        rcases mem_setStage hr' with hr' | ⟨old, hold, rfl⟩
        · rw [setShardMap_runs] at hr'
          exact h.runs r' hr' ha hslot
        · rw [setShardMap_runs, hk] at hold
          cases hold
          exact h.runs r hr (active_of_planned hstage) hslot
      · intro j hj
        have hj' : j ∈ (g.setShardMap r.node m).peers := hj
        rw [setShardMap_peers] at hj'
        exact Nat.le_trans (h.maps j hj') (epoch_setShardMap_mono j)
  | @start node slot' src dst st hstart hnode hne hfree hst =>
      constructor
      · intro y hy
        refine h.live y (live_start hnode ?_ hy)
        intro z hz
        rcases hst with ⟨rfl, _⟩ | rfl
        · cases hz
          rfl
        · cases hz
      · intro r hr ha hslot
        rcases List.mem_append.mp hr with hr | hr
        · exact h.runs r hr ha hslot
        · rw [List.mem_singleton.mp hr] at hslot ⊢
          rintro rfl
          exact hback (by rw [hstart, ← hslot])
      · exact h.maps
  | fail =>
      constructor
      · intro y hy
        exact h.live y (live_failRuns hy)
      · intro r hr ha
        rcases mem_failRuns hr with hr | ⟨_, _, rfl⟩
        · exact h.runs r hr ha
        · exact absurd ha not_false
      · exact h.maps

theorem moves (h : g.Away slot group epoch) (howns : g.Owns) (hmoves : Moves new g g')
    (hback : new ≠ some (slot, group)) : g'.Away slot group epoch := by
  induction hmoves with
  | refl => exact h
  | tail hinit hmove ih => exact ih.move (howns.moves hinit) hmove hback

end Away

theorem report_flipped {r' : MigrateSlot} (hk : g.runs[k]? = some r)
    (hok : g.report k r = .ok g') (hk' : g'.runs[k]? = some r') (hflip : r'.stage = .flipped m) :
    settles r.stage = some m ∧ g' = g.setStage k (.flipped m) := by
  rcases report_eq_ok hok with ⟨st, rfl, _, hnext⟩
  rw [getElem?_setStage hk] at hk'
  cases hk'
  change st = .flipped m at hflip
  subst hflip
  cases hnext with
  | flipped hstage hpurpose =>
      rw [hstage]
      rcases hpurpose with rfl | rfl
      · exact ⟨rfl, rfl⟩
      · exact ⟨rfl, rfl⟩

/-- When a run has published its flip, its slot has left the source. -/
theorem Owns.away_of_flipped (howns : g.Owns) (hinv : g'.Inv) (hok : g.exec (.report k) = .ok g')
    (hk : g'.runs[k]? = some r) (hflip : r.stage = .flipped m) :
    g'.Away r.slot r.src m.epoch := by
  rcases onRun_eq_ok hok with ⟨old, hold, hreport⟩
  rcases report_flipped hold hreport hk hflip with ⟨hsettles, rfl⟩
  rw [getElem?_setStage hold] at hk
  cases hk
  have hmem := List.mem_of_getElem? hold
  constructor
  · intro y hy hle
    have hdst := (howns.runs old hmem).owned m hsettles y
      (live_setStage (fun _ hz => by cases hz) hy) hle
    rw [hdst]
    exact fun heq => (howns.runs old hmem).distinct heq.symm
  · intro r' hr' ha hslot
    rcases List.getElem?_of_mem hr' with ⟨b, hb⟩
    rcases getElem?_of_setStage hb with ⟨hbk, hb⟩ | ⟨_, _, _, rfl⟩
    · exact absurd (howns.slots b k r' old hb hold ha (active_of_settles hsettles) hslot) hbk
    · exact absurd ha not_false
  · intro i hi
    have hrun := hinv.runs _ (List.mem_of_getElem? (getElem?_setStage hold))
    exact (hrun.published m (Or.inr rfl) i hi).epoch_le

/-!
## Epochs
-/

theorem epoch_le_exec (hok : g.exec a = .ok g') (i : Nat) :
    (g.maps i).epoch ≤ (g'.maps i).epoch := by
  cases a with
  | migrateSlot node slot src dst =>
      dsimp only [Publish.exec] at hok
      unfold Publish.migrateSlot at hok
      split at hok
      · cases hok
      · dsimp only at hok
        split at hok
        · cases hok
          exact Nat.le_refl _
        · split at hok
          · cases hok
          · cases hok
            exact Nat.le_refl _
  | distribute k =>
      rcases onRun_eq_ok hok with ⟨r, _, hr⟩
      unfold Publish.distribute at hr
      split at hr
      · cases hr
        exact epoch_setShardMap_mono i
      · cases hr
  | updateShardMap k peer ok =>
      rcases onRun_eq_ok hok with ⟨r, _, hr⟩
      unfold Publish.updateShardMap at hr
      split at hr
      · split at hr
        · cases hr
        · split at hr
          · cases hr
            exact epoch_setShardMap_mono i
          · cases hr
            exact Nat.le_refl _
      · cases hr
  | report k =>
      rcases onRun_eq_ok hok with ⟨r, _, hr⟩
      rcases report_eq_ok hr with ⟨st, rfl, _⟩
      exact Nat.le_refl _
  | copied k ok =>
      rcases onRun_eq_ok hok with ⟨r, _, hr⟩
      rcases copied_eq_ok hr with ⟨st, rfl, _⟩
      exact Nat.le_refl _
  | arrive call =>
      dsimp only [Publish.exec] at hok
      split at hok
      · cases hok
        exact epoch_setShardMap_mono i
      · cases hok

end Publish

end Shard
end Basalt
