import Basalt.Engine.Handles
import Basalt.Manifest.Courses

/-!
# The counts of the table handles

Every reference of a handle has one owner.  The owners are counted in every state
that the engine reaches, from whatever tables it is opened with.
-/

namespace Basalt
namespace Engine

open Lib Base Manifest

/-!
## Who owns what
-/

def Flush.tables : Flush -> List (Nat × Nat)
  | starting | writing _ | failing | pruning => []
  | opened file h => [(file.fileNum, h)]

def Flush.numbers : Flush -> List Nat
  | starting | failing | pruning => []
  | writing num => [num]
  | opened file _ => [file.fileNum]

def Stage.tables : Stage -> List (Nat × Nat)
  | merging _ _ | finishing _ => []
  | opening _ _ newHandles => newHandles

def Stage.numbers : Stage -> List Nat
  | merging outputs num => outputs.map FileMeta.fileNum ++ num.toList
  | opening outputs _ _ => outputs.map FileMeta.fileNum
  | finishing _ => []

def Section.held : Section -> List Nat
  | free | listing _ _ _ => []
  | taking _ _ taken => taken

def pinnedHandles (compacting : Option Running) : List Nat :=
  compacting.elim [] Running.inputs

def freshTables (flushers : List Flush) (compacting : Option Running) : List (Nat × Nat) :=
  flushers.flatMap Flush.tables ++ compacting.elim [] fun r => r.stage.tables

def freshNumbers (flushers : List Flush) (compacting : Option Running) : List Nat :=
  flushers.flatMap Flush.numbers ++ compacting.elim [] fun r => r.stage.numbers

namespace Db

def pinned (d : Db) : List Nat :=
  pinnedHandles d.compacting

def fresh (d : Db) : List (Nat × Nat) :=
  freshTables d.flushers d.compacting

/-- The references that an install in progress owns, and those that are given up. -/
def owned (d : Db) : List Nat :=
  d.mu.held ++ (d.fresh.map Prod.snd ++ d.dropping)

def owners (d : Db) : List Nat :=
  d.tables.map Prod.snd ++ (d.states.live.flatten ++ (d.pinned ++ d.owned))

def inflight (d : Db) : List Nat :=
  freshNumbers d.flushers d.compacting

def numbers (d : Db) : List Nat :=
  d.tables.map Prod.fst ++ d.inflight

end Db

def Stage.Ordered : Stage -> Prop
  | merging _ _ | finishing _ => True
  | opening outputs todo newHandles =>
      newHandles.map Prod.fst ++ todo.map FileMeta.fileNum = outputs.map FileMeta.fileNum

/-- What is known at the mutex: the handles listed are those of the files so far, and
the handles to be taken have a reference. -/
def Section.Sound (d : Db) : Section -> Prop
  | free => True
  | listing _ todo levels =>
      exists past, past ++ todo = d.version.all ∧
        List.Forall₂ (fun f h => (f.fileNum, h) ∈ d.tables) past levels
  | taking _ todo taken =>
      (taken ++ todo).Nodup ∧
        forall h, h ∈ todo -> h ∈ d.tables.map Prod.snd ∨ h ∈ d.rs.elim [] d.levels

def Life.Working : Life -> Prop
  | opening | closed => False
  | running | closing => True

/-- `Open` holds the mutex only before it returns, the others only after that. -/
def Taker.Suits (life : Life) : Taker -> Prop
  | install .opener => life = .opening
  | install .flusher | install .compactor | sealing | scheduling _ => life.Working

def Section.Suits (life : Life) : Section -> Prop
  | free => True
  | listing who _ _ => (Taker.install who).Suits life
  | taking who _ _ => who.Suits life

/-- A compaction that installs its outputs is past opening them, and one that is
scheduled is the only one. -/
def Section.Fits (compacting : Option Running) : Section -> Prop
  | listing .compactor _ _ =>
      forall r, compacting = some r -> exists failed, r.stage = .finishing failed
  | taking (.scheduling _) _ _ => compacting = none
  | free | listing .opener _ _ | listing .flusher _ _ | taking (.install _) _ _
  | taking .sealing _ _ => True

/-- The invariant.  `extra` are references of read states that a step has still to
release. -/
structure Db.Inv (extra : List Nat) (d : Db) : Prop where
  handles : d.handles.Counted d.owners
  states : d.states.Counted (extra ++ (d.rs.toList ++ d.readers))
  wellFormed : d.version.WellFormed
  named : forall x, x ∈ d.tables ++ d.fresh -> d.handles.vals[x.2]? = some x.1
  nodup : forall n, d.numbers.count n ≤ 1
  bound : forall n, n ∈ d.numbers ++ d.version.live -> n < d.nextFileNum
  apart : forall n, n ∈ d.inflight -> n ∉ d.version.live
  listed : forall hs, hs ∈ d.states.vals -> hs.Nodup
  pinned : d.pinned.Nodup
  ordered : forall r, d.compacting = some r -> r.stage.Ordered
  sound : d.mu.Sound d
  suits : d.mu.Suits d.life
  fits : d.mu.Fits d.compacting
  idle : d.life.Working ∨ d.flushers = [] ∧ d.compacting = none
  calls : 0 < d.calls -> d.life = .running
  shut : d.life = .closed -> (d.mu.held = [] ∧ d.tables = []) ∧ d.rs = none

theorem Section.Sound.congr {d d' : Db} {m : Section} (h : m.Sound d)
    (hversion : d'.version = d.version) (htables : d'.tables = d.tables) (hrs : d'.rs = d.rs)
    (hvals : d'.states.vals = d.states.vals) : m.Sound d' := by
  cases m with
  | free => exact trivial
  | listing who todo levels =>
      unfold Section.Sound at h ⊢
      rw [hversion, htables]
      exact h
  | taking who todo taken =>
      have hlevels : d'.levels = d.levels := by
        funext s
        unfold Db.levels
        rw [hvals]
      unfold Section.Sound at h ⊢
      rw [htables, hrs, hlevels]
      exact h

theorem Taker.Suits.ne_closed {who : Taker} {life : Life} (h : who.Suits life) :
    life ≠ .closed := by
  rintro rfl
  cases who with
  | install who =>
      cases who with
      | opener => cases h
      | flusher => exact h
      | compactor => exact h
  | sealing | scheduling c => exact h

theorem Section.Fits.restage {m : Section} {r : Running} (h : m.Fits (some r)) {stage : Stage}
    (hcase : (forall failed, r.stage ≠ .finishing failed) ∨
      exists failed, stage = .finishing failed) :
    m.Fits (some { r with stage := stage }) := by
  cases m with
  | free => exact trivial
  | listing who todo levels =>
      cases who with
      | opener | flusher => exact trivial
      | compactor =>
          rintro r' hr'
          cases hr'
          rcases h r rfl with ⟨failed, hstage⟩
          exact hcase.resolve_left fun hne => hne failed hstage
  | taking who todo taken =>
      cases who with
      | install who | sealing => exact trivial
      | scheduling c => cases h

theorem ne_closed_of_taking {who : Taker} {todo taken : List Nat} {life : Life}
    (h : (Section.taking who todo taken).Suits life) : life ≠ .closed :=
  Taker.Suits.ne_closed h

theorem ne_closed_of_listing {who : Installer} {todo : List FileMeta} {levels : List Nat}
    {life : Life} (h : (Section.listing who todo levels).Suits life) : life ≠ .closed :=
  Taker.Suits.ne_closed h

theorem Life.Working.ne_closed {life : Life} (h : life.Working) : life ≠ .closed := by
  rintro rfl
  exact h

namespace Db

variable {d d' : Db} {extra : List Nat} {s : Nat}

theorem count_owners (d : Db) (i : Nat) :
    d.owners.count i = (d.tables.map Prod.snd).count i + d.states.live.flatten.count i +
      (pinnedHandles d.compacting).count i + d.mu.held.count i +
      ((freshTables d.flushers d.compacting).map Prod.snd).count i + d.dropping.count i := by
  simp only [owners, owned, fresh, Db.pinned, List.count_append]
  lia

theorem count_numbers (d : Db) (n : Nat) :
    d.numbers.count n = (d.tables.map Prod.fst).count n +
      (freshNumbers d.flushers d.compacting).count n :=
  List.count_append

/-!
## Read states
-/

theorem levels_of_vals {x : List Nat} (h : d.states.vals[s]? = some x) : d.levels s = x := by
  unfold levels
  rw [h]
  rfl

/-- A read state may be released by an owner, which leaves the handles to be dropped
when it was the last one. -/
theorem Inv.release (h : d.Inv (s :: extra)) :
    exists d', d.release s = .ok d' ∧ d'.Inv extra ∧ d'.life = d.life := by
  have hcounted : d.states.Counted (s :: (extra ++ (d.rs.toList ++ d.readers))) := h.states
  rcases hcounted.unref with ⟨c, hc, _, hunref, hstates, hlast, hmore⟩
  have hval : d.states.vals[s]? = some c.val := by
    unfold Pool.vals
    rw [List.getElem?_map, hc]
    rfl
  unfold Db.release
  rw [hunref]
  refine ⟨_, rfl, ?_, rfl⟩
  have hvals : Pool.vals (d.states.modify s Pool.dropCell) = d.states.vals := Pool.vals_drop
  exact { h with
    handles := by
      apply h.handles.of_count
      intro i
      rw [count_owners, count_owners]
      by_cases hmem : s ∈ extra ++ (d.rs.toList ++ d.readers)
      · simp [hmem, hmore hmem]
      · have hcount := (hlast hmem).flatten.count_eq i
        rw [List.flatten_cons, List.count_append] at hcount
        simp only [hmem, not_false_eq_true, decide_true, if_true, List.count_append,
          levels_of_vals hval]
        lia
    states := hstates
    listed := by
      show forall hs, hs ∈ Pool.vals (d.states.modify s Pool.dropCell) -> hs.Nodup
      rw [hvals]
      exact h.listed
    sound := h.sound.congr rfl rfl rfl hvals }

def Safe : Except HandleFault Db -> Prop
  | .ok d => d.Inv []
  | .error e => e = .disabled

theorem safe_releaseReader (h : d.Inv []) (j : Nat) : Safe (d.releaseReader j) := by
  unfold releaseReader
  split
  · next s hs =>
      rcases split_at hs with ⟨a, b, hreaders, herase, _⟩
      have hinv : ({ d with readers := d.readers.eraseIdx j } : Db).Inv [s] := { h with
        states := by
          apply h.states.of_count
          intro i
          rw [herase, hreaders]
          simp only [List.count_append, List.count_cons, List.count_nil]
          lia }
      rcases hinv.release with ⟨d', hok, hd', _⟩
      rw [hok]
      exact hd'
  · exact rfl

theorem safe_acquire (h : d.Inv []) : Safe d.acquire := by
  unfold acquire
  split
  · exact h
  · next s hmu hrs _ =>
      have hmem : s ∈ [] ++ (d.rs.toList ++ d.readers) := by
        rw [hrs]
        exact List.mem_cons_self
      exact { h with
        handles := by
          apply h.handles.of_count
          intro i
          rw [count_owners, count_owners]
          simp only [Pool.live_ref]
        states := by
          apply (h.states.ref hmem).of_count
          intro i
          simp only [List.count_append, List.count_cons, List.count_nil]
          lia
        listed := by
          show forall hs, hs ∈ (d.states.ref s).vals -> hs.Nodup
          rw [Pool.vals_ref]
          exact h.listed
        sound := by
          rw [hmu]
          exact trivial }
  · exact rfl

theorem safe_drop (h : d.Inv []) (j : Nat) : Safe (d.drop j) := by
  unfold Db.drop
  split
  · next i hi =>
      rcases split_at hi with ⟨a, b, hdropping, herase, _⟩
      have hcounted : d.handles.Counted
          (i :: ({ d with dropping := d.dropping.eraseIdx j } : Db).owners) := by
        apply h.handles.of_count
        intro k
        rw [List.count_cons, count_owners, count_owners]
        rw [herase, hdropping]
        simp only [List.count_append, List.count_cons]
        lia
      rcases hcounted.unref with ⟨c, _, _, hunref, hnext, _⟩
      rw [hunref]
      exact { h with
        handles := hnext
        named := by
          intro x hx
          show (Pool.vals (d.handles.modify i Pool.dropCell))[x.2]? = some x.1
          rw [Pool.vals_drop]
          exact h.named x hx }
  · exact rfl

/-!
## Background work
-/

/-- The goroutines go on without opening a table: what they no longer own is dropped,
and a number they have allocated is new. -/
theorem Inv.background (h : d.Inv []) {flushers : List Flush} {compacting : Option Running}
    {dropping : List Nat} {next : Nat} {bgErr : Bool} (hnext : d.nextFileNum ≤ next)
    (hcount : forall i, ((freshTables flushers compacting).map Prod.snd).count i +
        (pinnedHandles compacting).count i + dropping.count i =
      (d.fresh.map Prod.snd).count i + d.pinned.count i + d.dropping.count i)
    (hfresh : forall x, x ∈ freshTables flushers compacting -> x ∈ d.fresh)
    (hinflight : forall n, (freshNumbers flushers compacting).count n ≤ d.inflight.count n ∨
      n = d.nextFileNum ∧ n < next ∧
        (freshNumbers flushers compacting).count n ≤ d.inflight.count n + 1)
    (hpinned : (pinnedHandles compacting).Nodup)
    (hordered : forall r, compacting = some r -> r.stage.Ordered)
    (hfits : d.mu.Fits compacting) (hlife : d.life.Working) :
    ({ d with
      flushers := flushers
      compacting := compacting
      dropping := dropping
      nextFileNum := next
      bgErr := bgErr } : Db).Inv [] := by
  have hnew : forall n, n ∈ d.numbers ++ d.version.live -> n ≠ d.nextFileNum :=
    fun n hn => Nat.ne_of_lt (h.bound n hn)
  have hmem : forall n, n ∈ freshNumbers flushers compacting ->
      n ∈ d.inflight ∨ n = d.nextFileNum ∧ n < next := by
    intro n hn
    rcases hinflight n with hle | ⟨heq, hlt, _⟩
    · left
      exact List.count_pos_iff.mp (Nat.lt_of_lt_of_le (List.count_pos_iff.mpr hn) hle)
    · exact Or.inr ⟨heq, hlt⟩
  exact { h with
    handles := by
      apply h.handles.of_count
      intro i
      have hi : _ = (d.fresh.map Prod.snd).count i + d.pinned.count i + _ := hcount i
      unfold fresh Db.pinned at hi
      rw [count_owners, count_owners]
      dsimp only
      lia
    named := by
      intro x hx
      apply h.named x
      rw [List.mem_append] at hx ⊢
      exact hx.imp_right (hfresh x)
    nodup := by
      intro n
      have hn := h.nodup n
      unfold numbers at hn
      rw [List.count_append] at hn
      rw [count_numbers]
      dsimp only
      rcases hinflight n with hle | ⟨heq, _, hle⟩
      · lia
      · have hzero : d.numbers.count n = 0 := by
          apply List.count_eq_zero_of_not_mem
          exact fun hmem => hnew n (List.mem_append_left _ hmem) heq
        unfold numbers at hzero
        rw [List.count_append] at hzero
        lia
    bound := by
      intro n hn
      have hold : n ∈ d.numbers ++ d.version.live -> n < next :=
        fun hn => Nat.lt_of_lt_of_le (h.bound n hn) hnext
      unfold numbers at hn hold
      simp only [List.mem_append] at hn hold
      rcases hn with (hn | hn) | hn
      · exact hold (Or.inl (Or.inl hn))
      · rcases hmem n hn with hn | ⟨_, hlt⟩
        · exact hold (Or.inl (Or.inr hn))
        · exact hlt
      · exact hold (Or.inr hn)
    apart := by
      intro n hn hlive
      rcases hmem n hn with hn | ⟨heq, _⟩
      · exact h.apart n hn hlive
      · exact hnew n (List.mem_append_right _ hlive) heq
    pinned := hpinned
    ordered := hordered
    sound := h.sound.congr rfl rfl rfl rfl
    fits := hfits
    idle := Or.inl hlife }

theorem Inv.reflush (h : d.Inv []) {a b : List Flush} {f : Flush} (hf : d.flushers = a ++ f :: b)
    (fs : List Flush) {dropping : List Nat} {next : Nat} {bgErr : Bool}
    (hnext : d.nextFileNum ≤ next)
    (hcount : forall i, ((fs.flatMap Flush.tables).map Prod.snd).count i + dropping.count i =
      (f.tables.map Prod.snd).count i + d.dropping.count i)
    (hsub : forall x, x ∈ fs.flatMap Flush.tables -> x ∈ f.tables)
    (hnumbers : forall n, (fs.flatMap Flush.numbers).count n ≤ f.numbers.count n ∨
      n = d.nextFileNum ∧ n < next ∧
        (fs.flatMap Flush.numbers).count n ≤ f.numbers.count n + 1) :
    ({ d with
      flushers := a ++ (fs ++ b)
      dropping := dropping
      nextFileNum := next
      bgErr := bgErr } : Db).Inv [] := by
  have hlife : d.life.Working := by
    apply h.idle.resolve_right
    rintro ⟨hnil, _⟩
    rw [hnil] at hf
    cases a <;> cases hf
  apply h.background hnext _ _ _ h.pinned h.ordered h.fits hlife
  · intro i
    have hi := hcount i
    unfold fresh freshTables Db.pinned
    rw [hf]
    simp only [List.flatMap_append, List.flatMap_cons, List.map_append, List.count_append]
    lia
  · intro x hx
    unfold fresh
    unfold freshTables at hx ⊢
    rw [hf]
    simp only [List.flatMap_append, List.flatMap_cons, List.mem_append] at hx ⊢
    have hx' := hsub x
    lia
  · intro n
    have hn := hnumbers n
    unfold inflight freshNumbers
    rw [hf]
    simp only [List.flatMap_append, List.flatMap_cons, List.count_append]
    lia

theorem Inv.working_of_compacting (h : d.Inv []) {r : Running} (hr : d.compacting = some r) :
    d.life.Working := by
  apply h.idle.resolve_right
  rintro ⟨_, hnone⟩
  rw [hr] at hnone
  cases hnone

theorem Inv.inputs_nodup (h : d.Inv []) {r : Running} (hr : d.compacting = some r) :
    r.inputs.Nodup := by
  have hpinned := h.pinned
  unfold Db.pinned at hpinned
  rw [hr] at hpinned
  exact hpinned

theorem Inv.restage (h : d.Inv []) {r : Running} (hr : d.compacting = some r) {stage : Stage}
    {dropping : List Nat} {next : Nat} (hnext : d.nextFileNum ≤ next)
    (hcount : forall i, (stage.tables.map Prod.snd).count i + dropping.count i =
      (r.stage.tables.map Prod.snd).count i + d.dropping.count i)
    (hsub : forall x, x ∈ stage.tables -> x ∈ r.stage.tables)
    (hnumbers : forall n, stage.numbers.count n ≤ r.stage.numbers.count n ∨
      n = d.nextFileNum ∧ n < next ∧ stage.numbers.count n ≤ r.stage.numbers.count n + 1)
    (hordered : stage.Ordered) (hfits : d.mu.Fits (some { r with stage := stage })) :
    ({ d with
      compacting := some { r with stage := stage }
      dropping := dropping
      nextFileNum := next } : Db).Inv [] := by
  apply h.background hnext _ _ _ _ _ hfits (h.working_of_compacting hr)
  · intro i
    have hi := hcount i
    unfold fresh freshTables Db.pinned pinnedHandles
    rw [hr]
    simp only [Option.elim_some, List.map_append, List.count_append]
    lia
  · intro x hx
    unfold fresh
    unfold freshTables at hx ⊢
    rw [hr]
    simp only [Option.elim_some, List.mem_append] at hx ⊢
    exact hx.imp_right (hsub x)
  · intro n
    have hn := hnumbers n
    unfold inflight freshNumbers
    rw [hr]
    simp only [Option.elim_some, List.count_append]
    lia
  · have hnodup : r.inputs.Nodup := h.inputs_nodup hr
    exact hnodup
  · intro r' hr'
    cases hr'
    exact hordered

theorem Inv.addFlusher (h : d.Inv []) {f : Flush} (hlife : d.life.Working)
    (htables : f.tables = []) (hnumbers : f.numbers = []) :
    ({ d with flushers := d.flushers ++ [f] } : Db).Inv [] := by
  apply h.background le_rfl _ _ _ h.pinned h.ordered h.fits hlife
  · intro i
    simp [fresh, freshTables, htables, Db.pinned]
  · intro x hx
    simpa [fresh, freshTables, htables] using hx
  · intro n
    simp [inflight, freshNumbers, hnumbers]

/-!
## Installs
-/

theorem Inv.unlock (h : d.Inv extra) (hheld : d.mu.held = []) :
    ({ d with mu := .free } : Db).Inv extra :=
  { h with
    handles := by
      apply h.handles.of_count
      intro i
      rw [count_owners, count_owners, hheld]
      rfl
    sound := trivial
    suits := trivial
    fits := trivial
    shut := fun hlife => ⟨⟨rfl, (h.shut hlife).left.right⟩, (h.shut hlife).right⟩ }

theorem Inv.swap (h : d.Inv []) {who : Taker} {taken : List Nat}
    (hmu : d.mu = .taking who [] taken) (hlife : d.life ≠ .closed) :
    exists d', d.swap taken = .ok d' ∧ d'.Inv [] ∧ d'.life = d.life := by
  have hsound := h.sound
  rw [hmu] at hsound
  have hnodup : taken.Nodup := by
    have hall := hsound.left
    rw [List.append_nil] at hall
    exact hall
  have hnext : ({ d with
      states := d.states ++ [{ val := taken }]
      rs := some d.states.length
      mu := .free } : Db).Inv d.rs.toList := { h with
    handles := by
      apply h.handles.of_count
      intro i
      rw [count_owners, count_owners, hmu]
      simp only [Pool.live_new, List.flatten_append, List.flatten_cons, List.flatten_nil,
        List.append_nil, List.count_append, Section.held, List.count_nil]
      lia
    states := by
      apply (h.states.new taken).of_count
      intro i
      simp only [Option.toList_some, List.count_append, List.count_cons, List.count_nil]
      lia
    listed := by
      intro hs hhs
      rw [Pool.vals_new, List.mem_append, List.mem_singleton] at hhs
      rcases hhs with hhs | rfl
      · exact h.listed hs hhs
      · exact hnodup
    sound := trivial
    suits := trivial
    fits := trivial
    shut := fun hclosed => absurd hclosed hlife }
  unfold Db.swap
  cases hrs : d.rs with
  | none =>
      rw [hrs] at hnext
      exact ⟨_, rfl, hnext, rfl⟩
  | some s =>
      rw [hrs] at hnext
      exact hnext.release

theorem safe_releaseFiles (h : d.Inv []) (hheld : d.mu.held = [])
    (hidle : d.flushers = [] ∧ d.compacting = none) (hcalls : ¬ 0 < d.calls) :
    Safe d.releaseFiles := by
  have hnext : ({ d with
      rs := none
      tables := []
      dropping := d.dropping ++ d.tables.map Prod.snd
      mu := .free
      life := .closed } : Db).Inv d.rs.toList := { h with
    handles := by
      apply h.handles.of_count
      intro i
      rw [count_owners, count_owners, hheld]
      simp only [Section.held, List.count_append, List.map_nil, List.count_nil]
      lia
    states := by
      apply h.states.of_count
      intro i
      simp only [Option.toList_none, List.count_append, List.count_nil]
      lia
    named := fun x hx => h.named x (List.mem_append_right _ hx)
    nodup := by
      intro n
      have hn := h.nodup n
      rw [count_numbers] at hn ⊢
      simp only [List.map_nil, List.count_nil]
      lia
    bound := by
      intro n hn
      apply h.bound n
      rw [List.mem_append] at hn ⊢
      exact hn.imp_left (List.mem_append_right _)
    sound := trivial
    suits := trivial
    fits := trivial
    idle := Or.inr hidle
    calls := fun hpos => absurd hpos hcalls
    shut := fun _ => ⟨⟨rfl, rfl⟩, rfl⟩ }
  unfold releaseFiles
  cases hrs : d.rs with
  | none =>
      rw [hrs] at hnext
      exact hnext
  | some s =>
      rw [hrs] at hnext
      rcases hnext.release with ⟨d', hok, hd', _⟩
      show Safe (Db.release _ s)
      rw [hok]
      exact hd'

theorem safe_taken (h : d.Inv []) : Safe d.taken := by
  have hsuits := h.suits
  unfold Db.taken
  split
  · next c taken hmu =>
      have hsound := h.sound
      have hnone := h.fits
      rw [hmu] at hsound hnone hsuits
      have hcompacting : d.compacting = none := hnone
      have hnodup : taken.Nodup := by
        have hall := hsound.left
        rw [List.append_nil] at hall
        exact hall
      exact { h with
        handles := by
          apply h.handles.of_count
          intro i
          rw [count_owners, count_owners, hmu, hcompacting]
          simp only [pinnedHandles, freshTables, Section.held, Option.elim_some,
            Option.elim_none, Stage.tables, List.count_nil]
          lia
        named := by
          intro x hx
          apply h.named x
          unfold fresh freshTables at hx ⊢
          rw [hcompacting]
          exact hx
        nodup := by
          intro n
          have hn := h.nodup n
          rw [count_numbers, hcompacting] at hn
          rw [count_numbers]
          exact hn
        bound := by
          intro n hn
          apply h.bound n
          unfold numbers inflight freshNumbers at hn ⊢
          rw [hcompacting]
          exact hn
        apart := by
          intro n hn
          apply h.apart n
          unfold inflight freshNumbers at hn ⊢
          rw [hcompacting]
          exact hn
        pinned := hnodup
        ordered := by
          intro r hr
          cases hr
          exact trivial
        sound := trivial
        suits := trivial
        fits := trivial
        idle := Or.inl hsuits
        shut := fun hlife => absurd hlife (ne_closed_of_taking hsuits) }
  · next taken hmu =>
      rw [hmu] at hsuits
      rcases h.swap hmu (ne_closed_of_taking hsuits) with ⟨d', hok, hd', hlife⟩
      rw [hok]
      apply hd'.addFlusher _ rfl rfl
      rw [hlife]
      exact hsuits
  · next taken hmu =>
      rw [hmu] at hsuits
      rcases h.swap hmu (ne_closed_of_taking hsuits) with ⟨d', hok, hd', hlife⟩
      rw [hok]
      apply hd'.addFlusher _ rfl rfl
      rw [hlife]
      exact hsuits
  · next who taken _ hmu =>
      rw [hmu] at hsuits
      rcases h.swap hmu (ne_closed_of_taking hsuits) with ⟨d', hok, hd', _⟩
      rw [hok]
      exact hd'
  · exact rfl

theorem mem_owners_of_tables {i : Nat} (hi : i ∈ d.tables.map Prod.snd) : i ∈ d.owners :=
  List.mem_append_left _ hi

theorem Inv.mem_owners_of_rs (h : d.Inv []) {i : Nat} (hi : i ∈ d.rs.elim [] d.levels) :
    i ∈ d.owners := by
  cases hrs : d.rs with
  | none =>
      rw [hrs] at hi
      cases hi
  | some s =>
      rw [hrs] at hi
      have hs : s ∈ [] ++ (d.rs.toList ++ d.readers) := by
        rw [hrs]
        exact List.mem_cons_self
      rcases h.states.mem_live hs with ⟨hs, hval, hlive⟩
      have hmem : i ∈ hs := by
        rw [← levels_of_vals hval]
        exact hi
      apply List.mem_append_right
      exact List.mem_append_left _ (List.mem_flatten.mpr ⟨hs, hlive, hmem⟩)

theorem safe_ref (h : d.Inv []) : Safe d.ref := by
  unfold Db.ref
  split
  · next who i todo taken hmu =>
      have hsound := h.sound
      have hsuits := h.suits
      have hfits := h.fits
      rw [hmu] at hsound hsuits hfits
      have hmem : i ∈ d.owners :=
        (hsound.right i List.mem_cons_self).elim mem_owners_of_tables h.mem_owners_of_rs
      exact { h with
        handles := by
          apply (h.handles.ref hmem).of_count
          intro k
          rw [List.count_cons, count_owners, count_owners, hmu]
          simp only [Section.held, List.count_append, List.count_cons, List.count_nil]
          lia
        named := by
          intro x hx
          show (Pool.vals (d.handles.ref i))[x.2]? = some x.1
          rw [Pool.vals_ref]
          exact h.named x hx
        sound := by
          constructor
          · rw [List.append_assoc]
            exact hsound.left
          · exact fun k hk => hsound.right k (List.mem_cons_of_mem i hk)
        suits := hsuits
        fits := by
          cases who with
          | install who | sealing => exact trivial
          | scheduling c => exact hfits
        shut := fun hlife => absurd hlife (Taker.Suits.ne_closed hsuits) }
  · exact rfl

theorem exists_of_forall₂ {α β : Type} {R : α -> β -> Prop} {xs : List α} {ys : List β}
    {y : β} (h : List.Forall₂ R xs ys) (hy : y ∈ ys) : exists x, x ∈ xs ∧ R x y := by
  induction h with
  | nil => cases hy
  | @cons a b xs ys hab _ ih =>
      rcases List.mem_cons.mp hy with rfl | hy
      · exact ⟨a, List.mem_cons_self, hab⟩
      · rcases ih hy with ⟨x, hx, hxy⟩
        exact ⟨x, List.mem_cons_of_mem a hx, hxy⟩

theorem Inv.nodup_listed (h : d.Inv []) {past : List FileMeta} {levels : List Nat}
    (hpast : (past.map FileMeta.fileNum).Nodup)
    (hlisted : List.Forall₂ (fun f h => (f.fileNum, h) ∈ d.tables) past levels) :
    levels.Nodup := by
  have hmap : levels.map (fun i => d.handles.vals[i]?) =
      past.map fun f => some f.fileNum := by
    clear hpast
    induction hlisted with
    | nil => rfl
    | @cons f i past levels hmem _ ih =>
        rw [List.map_cons, List.map_cons, ih]
        rw [h.named (f.fileNum, i) (List.mem_append_left _ hmem)]
  have hnums : (past.map fun f => some f.fileNum).Nodup := by
    have hsome := hpast.map (Option.some_injective Nat)
    rw [List.map_map] at hsome
    exact hsome
  rw [← hmap] at hnums
  exact hnums.of_map

theorem safe_sweep (h : d.Inv []) : Safe d.sweep := by
  unfold sweep
  split
  · next who levels hmu =>
      have hsound := h.sound
      have hsuits := h.suits
      rw [hmu] at hsound hsuits
      rcases hsound with ⟨past, hpast, hlisted⟩
      rw [List.append_nil] at hpast
      have hsplit : forall i, (d.tables.map Prod.snd).count i =
          ((d.tables.filter fun x => x.1 ∈ d.version.live).map Prod.snd).count i +
          ((d.tables.filter fun x => x.1 ∉ d.version.live).map Prod.snd).count i := by
        intro i
        have hperm := List.filter_append_perm (fun x => decide (x.1 ∈ d.version.live)) d.tables
        rw [← (hperm.map Prod.snd).count_eq i, List.map_append, List.count_append]
        simp only [decide_not]
      have hsub : (d.tables.filter fun x => x.1 ∈ d.version.live).Sublist d.tables :=
        List.filter_sublist
      exact { h with
        handles := by
          apply h.handles.of_count
          intro i
          rw [count_owners, count_owners, hmu, hsplit]
          simp only [Section.held, List.count_append, List.count_nil]
          lia
        named := by
          intro x hx
          apply h.named x
          rw [List.mem_append] at hx ⊢
          exact hx.imp_left fun hx => hsub.subset hx
        nodup := by
          intro n
          have hn := h.nodup n
          have hle := (hsub.map Prod.fst).count_le n
          rw [count_numbers] at hn ⊢
          dsimp only
          lia
        bound := by
          intro n hn
          apply h.bound n
          unfold numbers at hn ⊢
          simp only [List.mem_append] at hn ⊢
          exact hn.imp_left fun hn => hn.imp_left fun hn => (hsub.map Prod.fst).subset hn
        sound := by
          constructor
          · apply h.nodup_listed _ hlisted
            rw [hpast]
            exact h.wellFormed.nodup_live
          · intro i hi
            left
            rcases exists_of_forall₂ hlisted hi with ⟨f, hf, hmem⟩
            refine List.mem_map.mpr ⟨(f.fileNum, i), List.mem_filter.mpr ⟨hmem, ?_⟩, rfl⟩
            rw [hpast] at hf
            exact decide_eq_true (List.mem_map_of_mem hf)
        suits := hsuits
        fits := trivial
        shut := fun hlife => absurd hlife (Taker.Suits.ne_closed hsuits) }
  · exact rfl

theorem mem_of_table? {num i : Nat} (h : d.table? num = some i) : (num, i) ∈ d.tables := by
  unfold table? at h
  rcases Option.map_eq_some_iff.mp h with ⟨x, hfind, rfl⟩
  have hfound := List.find?_some hfind
  have hnum : x.1 = num := of_decide_eq_true hfound
  rw [← hnum]
  exact List.mem_of_find?_eq_some hfind

theorem not_mem_of_table? {num : Nat} (h : d.table? num = none) :
    num ∉ d.tables.map Prod.fst := by
  intro hmem
  rcases List.mem_map.mp hmem with ⟨x, hx, hnum⟩
  have hnone := List.find?_eq_none.mp (Option.map_eq_none_iff.mp h) x hx
  exact hnone (decide_eq_true hnum)

theorem insertTable_of_not_mem {tables : List (Nat × Nat)} {x : Nat × Nat}
    (h : x.1 ∉ tables.map Prod.fst) : insertTable tables x = tables ++ [x] := by
  unfold insertTable
  congr 1
  apply List.filter_eq_self.mpr
  intro y hy
  apply decide_eq_true
  intro heq
  exact h (List.mem_map.mpr ⟨y, hy, heq⟩)

theorem vals_openTable {tables : List (Nat × Nat)} {num : Nat}
    (h : forall x, x ∈ tables -> d.handles.vals[x.2]? = some x.1) (x : Nat × Nat)
    (hx : x ∈ tables ∨ x = (num, d.handles.length)) :
    (Pool.vals (d.handles ++ [{ val := num }]))[x.2]? = some x.1 := by
  rw [Pool.vals_new]
  rcases hx with hx | rfl
  · have hold := h x hx
    rw [List.getElem?_append_left (List.getElem?_eq_some_iff.mp hold).choose]
    exact hold
  · rw [List.getElem?_append_right (Nat.le_of_eq Pool.length_vals), Pool.length_vals,
      Nat.sub_self]
    rfl

theorem Inv.idle_of_opening (h : d.Inv []) (hlife : d.life = .opening) :
    (d.flushers = [] ∧ d.compacting = none) ∧ ¬ 0 < d.calls := by
  constructor
  · apply h.idle.resolve_left
    rw [hlife]
    exact id
  · intro hpos
    rw [h.calls hpos] at hlife
    cases hlife

theorem safe_installFailed (h : d.Inv []) {who : Installer} {todo : List FileMeta}
    {levels : List Nat} (hmu : d.mu = .listing who todo levels) :
    Safe (d.installFailed who) := by
  have hsuits := h.suits
  have hfits := h.fits
  rw [hmu] at hsuits hfits
  have hheld : d.mu.held = [] := by
    rw [hmu]
    rfl
  have hunlocked := h.unlock hheld
  cases who with
  | opener =>
      rcases h.idle_of_opening hsuits with ⟨hidle, hcalls⟩
      exact safe_releaseFiles h hheld hidle hcalls
  | flusher => exact hunlocked.addFlusher hsuits rfl rfl
  | compactor =>
      cases hc : d.compacting with
      | none =>
          have hsame : d.compacting.map (fun r => { r with stage := .finishing true }) =
              d.compacting := by
            rw [hc]
            rfl
          show Safe (.ok { d with mu := .free, compacting := _ })
          rw [hsame]
          exact hunlocked
      | some r =>
          rcases hfits r hc with ⟨failed, hstage⟩
          have hsome : d.compacting.map (fun r => { r with stage := .finishing true }) =
              some { r with stage := .finishing true } := by
            rw [hc]
            rfl
          show Safe (.ok { d with mu := .free, compacting := _ })
          rw [hsome]
          refine hunlocked.restage hc le_rfl ?_ ?_ ?_ trivial trivial
          · intro i
            rw [hstage]
            rfl
          · intro x hx
            cases hx
          · intro n
            exact Or.inl (Nat.zero_le _)

theorem safe_list (h : d.Inv []) (ok : Bool) : Safe (d.list ok) := by
  unfold list
  split
  · next who f todo levels hmu =>
      have hsound := h.sound
      have hsuits := h.suits
      have hfits := h.fits
      rw [hmu] at hsound hsuits hfits
      rcases hsound with ⟨past, hpast, hlisted⟩
      have hpast' : (past ++ [f]) ++ todo = d.version.all := by
        rw [List.append_assoc]
        exact hpast
      have hlive : f.fileNum ∈ d.version.live := by
        apply List.mem_map_of_mem
        rw [← hpast]
        exact List.mem_append_right _ List.mem_cons_self
      have hfits' : forall levels, (Section.listing who todo levels).Fits d.compacting := by
        intro levels
        cases who with
        | opener | flusher => exact trivial
        | compactor => exact hfits
      split
      · next i hi =>
          exact { h with
            handles := by
              apply h.handles.of_count
              intro i
              rw [count_owners, count_owners, hmu]
              rfl
            sound := ⟨past ++ [f], hpast',
              List.rel_append hlisted (.cons (mem_of_table? hi) .nil)⟩
            suits := hsuits
            fits := hfits' _
            shut := fun hlife => absurd hlife (ne_closed_of_listing hsuits) }
      · next hnone =>
          split
          · have hnew := not_mem_of_table? hnone
            have hinsert : insertTable d.tables (f.fileNum, d.handles.length) =
                d.tables ++ [(f.fileNum, d.handles.length)] := insertTable_of_not_mem hnew
            dsimp only [openTable]
            rw [hinsert]
            exact { h with
              handles := by
                apply (h.handles.new f.fileNum).of_count
                intro i
                rw [List.count_cons, count_owners, count_owners, hmu]
                simp only [Section.held, List.map_append, List.map_cons, List.map_nil,
                  List.count_append, List.count_cons, List.count_nil]
                lia
              named := by
                intro x hx
                apply vals_openTable h.named x
                simp only [List.mem_append, List.mem_singleton] at hx ⊢
                rcases hx with (hx | hx) | hx
                · exact Or.inl (Or.inl hx)
                · exact Or.inr hx
                · exact Or.inl (Or.inr hx)
              nodup := by
                intro n
                have hn := h.nodup n
                have hzero : d.numbers.count f.fileNum = 0 := by
                  apply List.count_eq_zero_of_not_mem
                  intro hmem
                  rcases List.mem_append.mp hmem with hmem | hmem
                  · exact hnew hmem
                  · exact h.apart _ hmem hlive
                rw [count_numbers] at hn hzero ⊢
                simp only [List.map_append, List.map_cons, List.map_nil, List.count_append,
                  List.count_cons, List.count_nil]
                split
                · next heq =>
                    rw [beq_iff_eq] at heq
                    subst heq
                    lia
                · lia
              bound := by
                intro n hn
                unfold numbers at hn
                simp only [List.map_append, List.map_cons, List.map_nil, List.mem_append,
                  List.mem_singleton] at hn
                apply h.bound n
                unfold numbers
                simp only [List.mem_append]
                rcases hn with ((hn | rfl) | hn) | hn
                · exact Or.inl (Or.inl hn)
                · exact Or.inr hlive
                · exact Or.inl (Or.inr hn)
                · exact Or.inr hn
              sound := by
                refine ⟨past ++ [f], hpast', List.rel_append (hlisted.imp ?_) ?_⟩
                · exact fun g i hmem => List.mem_append_left _ hmem
                · exact .cons (List.mem_append_right _ List.mem_cons_self) .nil
              suits := hsuits
              fits := hfits' _
              shut := fun hlife => absurd hlife (ne_closed_of_listing hsuits) }
          · exact safe_installFailed h hmu
  · exact rfl

/-!
## Open, calls and Close
-/

theorem safe_opened (h : d.Inv []) (ok : Bool) : Safe (d.opened ok) := by
  unfold Db.opened
  split
  · next hmu hlife =>
      rcases h.idle_of_opening hlife with ⟨hidle, hcalls⟩
      split
      · exact { h with
          sound := by
            rw [hmu]
            exact trivial
          suits := by
            rw [hmu]
            exact trivial
          idle := Or.inl trivial
          calls := fun _ => rfl
          shut := fun hclosed => by cases hclosed }
      · apply safe_releaseFiles h _ hidle hcalls
        rw [hmu]
        rfl
  · exact rfl

theorem safe_call (h : d.Inv []) : Safe d.call := by
  unfold call
  split
  · next hlife =>
      exact { h with
        sound := h.sound.congr rfl rfl rfl rfl
        calls := fun _ => hlife }
  · exact rfl

theorem safe_sealLocked (h : d.Inv []) (rotated : Bool) : Safe (d.sealLocked rotated) := by
  unfold sealLocked
  split
  · next s hmu hrs =>
      split
      · next hcall =>
          have hlife : d.life.Working := by
            rcases hcall with hpos | hclosing
            · rw [h.calls hpos]
              exact trivial
            · rw [hclosing]
              exact trivial
          split
          · have hs : s ∈ [] ++ (d.rs.toList ++ d.readers) := by
              rw [hrs]
              exact List.mem_cons_self
            rcases h.states.mem_live hs with ⟨hs, hval, _⟩
            exact { h with
              handles := by
                apply h.handles.of_count
                intro i
                rw [count_owners, count_owners, hmu]
                rfl
              sound := by
                constructor
                · rw [levels_of_vals hval]
                  exact h.listed hs (List.mem_of_getElem? hval)
                · intro i hi
                  right
                  rw [hrs]
                  exact hi
              suits := hlife
              fits := trivial
              shut := fun hclosed => absurd hclosed hlife.ne_closed }
          · exact { h with
              sound := by
                rw [hmu]
                exact trivial }
      · exact rfl
  · exact rfl

theorem safe_close (h : d.Inv []) : Safe d.close := by
  unfold close
  split
  · next hmu =>
      split
      · next hcond =>
          exact { h with
            sound := by
              rw [hmu]
              exact trivial
            suits := by
              rw [hmu]
              exact trivial
            idle := Or.inl trivial
            calls := fun hpos => by
              rw [hcond.right] at hpos
              cases hpos
            shut := fun hclosed => by cases hclosed }
      · exact rfl
  · exact rfl

theorem safe_closed (h : d.Inv []) : Safe d.closed := by
  unfold Db.closed
  split
  · next hmu hflushers hcompacting =>
      split
      · next hlife =>
          apply safe_releaseFiles h _ ⟨hflushers, hcompacting⟩
          · intro hpos
            rw [h.calls hpos] at hlife
            cases hlife
          · rw [hmu]
            rfl
      · exact rfl
  · exact rfl

/-!
## Flushes and compactions
-/

theorem Inv.opensTable (h : d.Inv []) {num : Nat} {flushers : List Flush}
    {compacting : Option Running}
    (hfresh : (freshTables flushers compacting).Perm ((num, d.handles.length) :: d.fresh))
    (hinflight : freshNumbers flushers compacting = d.inflight)
    (hpinned : pinnedHandles compacting = d.pinned)
    (hordered : forall r, compacting = some r -> r.stage.Ordered)
    (hfits : d.mu.Fits compacting) (hlife : d.life.Working) :
    ({ d with
      handles := d.handles ++ [{ val := num }]
      flushers := flushers
      compacting := compacting } : Db).Inv [] := by
  exact { h with
    handles := by
      apply (h.handles.new num).of_count
      intro i
      have hi := (hfresh.map Prod.snd).count_eq i
      rw [List.map_cons, List.count_cons] at hi
      rw [List.count_cons, count_owners, count_owners]
      unfold fresh at hi
      unfold Db.pinned at hpinned
      dsimp only
      rw [hpinned]
      lia
    named := by
      intro x hx
      apply vals_openTable h.named x
      rw [List.mem_append] at hx
      rcases hx with hx | hx
      · exact Or.inl (List.mem_append_left _ hx)
      · rcases List.mem_cons.mp (hfresh.subset hx) with hx | hx
        · exact Or.inr hx
        · exact Or.inl (List.mem_append_right _ hx)
    nodup := by
      intro n
      rw [count_numbers]
      dsimp only
      rw [hinflight]
      have hn := h.nodup n
      unfold numbers at hn
      rw [List.count_append] at hn
      exact hn
    bound := by
      intro n hn
      apply h.bound n
      unfold numbers inflight at hn
      dsimp only at hn
      rw [hinflight] at hn
      exact hn
    apart := by
      intro n hn
      unfold inflight at hn
      dsimp only at hn
      rw [hinflight] at hn
      exact h.apart n hn
    pinned := by
      unfold Db.pinned
      dsimp only
      rw [hpinned]
      exact h.pinned
    ordered := hordered
    sound := h.sound.congr rfl rfl rfl rfl
    fits := hfits
    idle := Or.inl hlife }

theorem Inv.commit (h : d.Inv []) {v : Version} {next : Nat} {new : List (Nat × Nat)}
    {flushers : List Flush} {compacting : Option Running} {who : Installer}
    (hv : v.WellFormed) (hnext : d.nextFileNum ≤ next)
    (hlive : forall n, n ∈ v.live -> n ∈ d.version.live ∨ n ∈ new.map Prod.fst)
    (hfresh : d.fresh.Perm (new ++ freshTables flushers compacting))
    (hinflight : d.inflight.Perm (new.map Prod.fst ++ freshNumbers flushers compacting))
    (hpinned : pinnedHandles compacting = d.pinned)
    (hordered : forall r, compacting = some r -> r.stage.Ordered)
    (hmu : d.mu = .free) (hfits : (Section.listing who v.all []).Fits compacting)
    (hsuits : (Taker.install who).Suits d.life) (hlife : d.life.Working) :
    ({ d with
      version := v
      nextFileNum := next
      tables := d.tables ++ new
      flushers := flushers
      compacting := compacting
      mu := .listing who v.all [] } : Db).Inv [] := by
  exact { h with
    handles := by
      apply h.handles.of_count
      intro i
      have hi := (hfresh.map Prod.snd).count_eq i
      rw [List.map_append, List.count_append] at hi
      unfold fresh at hi
      unfold Db.pinned at hpinned
      rw [count_owners, count_owners, hmu]
      simp only [List.map_append, List.count_append, Section.held, hpinned]
      lia
    wellFormed := hv
    named := by
      intro x hx
      apply h.named x
      rw [List.mem_append] at hx ⊢
      rw [List.mem_append] at hx
      rcases hx with (hx | hx) | hx
      · exact Or.inl hx
      · exact Or.inr (hfresh.symm.subset (List.mem_append_left _ hx))
      · exact Or.inr (hfresh.symm.subset (List.mem_append_right _ hx))
    nodup := by
      intro n
      have hn := h.nodup n
      have hi := hinflight.count_eq n
      unfold numbers at hn
      rw [List.count_append] at hn hi
      rw [count_numbers]
      simp only [List.map_append, List.count_append]
      lia
    bound := by
      intro n hn
      apply Nat.lt_of_lt_of_le (h.bound n _) hnext
      unfold numbers at hn ⊢
      simp only [List.map_append, List.mem_append] at hn ⊢
      have hmem : n ∈ new.map Prod.fst ∨ n ∈ freshNumbers flushers compacting ->
          n ∈ d.inflight :=
        fun hn => hinflight.symm.subset (List.mem_append.mpr hn)
      rcases hn with ((hn | hn) | hn) | hn
      · exact Or.inl (Or.inl hn)
      · exact Or.inl (Or.inr (hmem (Or.inl hn)))
      · exact Or.inl (Or.inr (hmem (Or.inr hn)))
      · rcases hlive n hn with hn | hn
        · exact Or.inr hn
        · exact Or.inl (Or.inr (hmem (Or.inl hn)))
    apart := by
      intro n hn hn'
      have hold : n ∈ d.inflight := hinflight.symm.subset (List.mem_append_right _ hn)
      rcases hlive n hn' with hn' | hn'
      · exact h.apart n hold hn'
      · have hone := h.nodup n
        have hi := hinflight.count_eq n
        have hpos : 0 < (freshNumbers flushers compacting).count n := List.count_pos_iff.mpr hn
        have hpos' : 0 < (new.map Prod.fst).count n := List.count_pos_iff.mpr hn'
        unfold numbers at hone
        rw [List.count_append] at hone hi
        lia
    pinned := by
      unfold Db.pinned
      dsimp only
      rw [hpinned]
      exact h.pinned
    ordered := hordered
    sound := ⟨[], rfl, .nil⟩
    suits := hsuits
    fits := hfits
    idle := Or.inl hlife
    shut := fun hclosed => absurd hclosed hlife.ne_closed }

theorem apply_eq_some {e : VersionEdit} {logged : Option Bool} (h : d.apply e logged = some d') :
    exists v next, applyEdit d.version e = .ok v ∧ d.nextFileNum ≤ next ∧
      d' = { d with version := v, nextFileNum := next } := by
  unfold apply at h
  split at h
  · next rotated v hv =>
      cases h
      refine ⟨v, _, hv, ?_, rfl⟩
      split
      · exact Nat.le_succ _
      · exact le_rfl
  · cases h

theorem Inv.working_of_flusher (h : d.Inv []) {j : Nat} {f : Flush}
    (hj : d.flushers[j]? = some f) : d.life.Working := by
  apply h.idle.resolve_right
  rintro ⟨hnil, _⟩
  rw [hnil] at hj
  cases hj

theorem safe_flushImm (h : d.Inv []) (j : Nat) (step : FlushStep) :
    Safe (d.flushImm j step) := by
  unfold flushImm
  split
  · next hj _ =>
      rcases split_at hj with ⟨a, b, hflushers, _, hset⟩
      rw [hset]
      apply h.reflush hflushers [.writing d.nextFileNum] (Nat.le_succ _)
      · intro i
        rfl
      · intro x hx
        cases hx
      · intro n
        simp only [List.flatMap_cons, List.flatMap_nil, List.append_nil, Flush.numbers,
          List.count_cons, List.count_nil]
        split
        · next heq =>
            rw [beq_iff_eq] at heq
            subst heq
            exact Or.inr ⟨rfl, Nat.lt_succ_self _, le_rfl⟩
        · exact Or.inl le_rfl
  · next num hj =>
      rcases split_at hj with ⟨a, b, hflushers, _, hset⟩
      rw [hset]
      apply h.reflush hflushers [.failing] le_rfl
      · intro i
        rfl
      · intro x hx
        cases hx
      · intro n
        exact Or.inl (Nat.zero_le _)
  · next num props hj =>
      rcases split_at hj with ⟨a, b, hflushers, _, hset⟩
      dsimp only [openTable]
      rw [hset]
      apply h.opensTable _ _ rfl h.ordered h.fits (h.working_of_flusher hj)
      · unfold fresh freshTables
        rw [hflushers]
        simp only [List.flatMap_append, List.flatMap_cons, Flush.tables, List.nil_append,
          List.cons_append, List.append_assoc]
        exact List.perm_middle
      · unfold inflight freshNumbers
        rw [hflushers]
        simp only [List.flatMap_append, List.flatMap_cons, Flush.numbers]
  · next file i logged hj hmu =>
      rcases split_at hj with ⟨a, b, hflushers, herase, hset⟩
      split
      · rw [hset]
        apply h.reflush hflushers [.failing] le_rfl
        · intro k
          simp [Flush.tables, List.count_cons]
          lia
        · intro x hx
          cases hx
        · intro n
          exact Or.inl (Nat.zero_le _)
      · next d' hd' =>
          rcases apply_eq_some hd' with ⟨v, next, hv, hnext, rfl⟩
          have hfresh : d.fresh.Perm
              ([(file.fileNum, i)] ++ freshTables (a ++ b) d.compacting) := by
            unfold fresh freshTables
            rw [hflushers]
            simp only [List.flatMap_append, List.flatMap_cons, Flush.tables,
              List.nil_append, List.cons_append, List.append_assoc]
            exact List.perm_middle
          have hinflight : d.inflight.Perm
              ([(file.fileNum, i)].map Prod.fst ++ freshNumbers (a ++ b) d.compacting) := by
            unfold inflight freshNumbers
            rw [hflushers]
            simp only [List.flatMap_append, List.flatMap_cons, Flush.numbers, List.map_cons,
              List.map_nil, List.nil_append, List.cons_append, List.append_assoc]
            exact List.perm_middle
          have hnew : file.fileNum ∉ d.tables.map Prod.fst := by
            intro hmem
            have hone := h.nodup file.fileNum
            have hin : file.fileNum ∈ d.inflight :=
              hinflight.symm.subset List.mem_cons_self
            rw [← List.count_pos_iff] at hmem hin
            unfold numbers at hone
            rw [List.count_append] at hone
            lia
          have hinsert : insertTable d.tables (file.fileNum, i) =
              d.tables ++ [(file.fileNum, i)] := insertTable_of_not_mem hnew
          have hlife := h.working_of_flusher hj
          rw [herase, hinsert]
          exact h.commit (h.wellFormed.applyEdit hv) hnext
            (fun n hn => live_of_applyEdit hv hn) hfresh hinflight rfl h.ordered hmu trivial
            hlife hlife
  · next hj _ =>
      rcases split_at hj with ⟨a, b, hflushers, herase, _⟩
      rw [herase]
      apply h.reflush hflushers [] le_rfl
      · intro i
        rfl
      · intro x hx
        cases hx
      · intro n
        exact Or.inl (Nat.zero_le _)
  · next err hj _ =>
      rcases split_at hj with ⟨a, b, hflushers, herase, _⟩
      rw [herase]
      apply h.reflush hflushers [] le_rfl
      · intro i
        rfl
      · intro x hx
        cases hx
      · intro n
        exact Or.inl (Nat.zero_le _)
  · exact rfl

theorem forall₂_of_mapM {fs : List FileMeta} {hs : List Nat}
    (h : fs.mapM (fun f => d.table? f.fileNum) = some hs) :
    List.Forall₂ (fun f i => (f.fileNum, i) ∈ d.tables) fs hs := by
  induction fs generalizing hs with
  | nil =>
      cases h
      exact .nil
  | cons f fs ih =>
      rw [List.mapM_cons] at h
      rcases Option.bind_eq_some_iff.mp h with ⟨i, hi, h⟩
      rcases Option.bind_eq_some_iff.mp h with ⟨is, his, h⟩
      cases h
      exact .cons (mem_of_table? hi) (ih his)

theorem safe_maybeScheduleCompaction (h : d.Inv []) : Safe d.maybeScheduleCompaction := by
  unfold maybeScheduleCompaction
  split
  · next hmu hlife hnone =>
      split
      · exact h
      · split
        · exact h
        · next c compactPtr hpick =>
            split
            · exact { h with
                sound := by
                  rw [hmu]
                  exact trivial }
            · next hs hhandles =>
                have hlisted := forall₂_of_mapM hhandles
                rcases (pickable_of_pickCompaction hpick).chosen with ⟨level, output, hchosen⟩
                exact { h with
                  handles := by
                    apply h.handles.of_count
                    intro i
                    rw [count_owners, count_owners, hmu]
                    rfl
                  sound := by
                    constructor
                    · exact h.nodup_listed (hchosen.nodup h.wellFormed) hlisted
                    · intro i hi
                      left
                      rcases exists_of_forall₂ hlisted hi with ⟨f, _, hmem⟩
                      exact List.mem_map.mpr ⟨_, hmem, rfl⟩
                  suits := by
                    show d.life.Working
                    rw [hlife]
                    exact trivial
                  fits := hnone
                  shut := fun hclosed => by
                    have hclosed' : d.life = .closed := hclosed
                    rw [hlife] at hclosed'
                    cases hclosed' }
  · exact rfl

theorem foldl_insertTable {new tables : List (Nat × Nat)}
    (h : forall n, (tables.map Prod.fst).count n + (new.map Prod.fst).count n ≤ 1) :
    new.foldl insertTable tables = tables ++ new := by
  induction new generalizing tables with
  | nil => exact (List.append_nil _).symm
  | cons x new ih =>
      have hx : x.1 ∉ tables.map Prod.fst := by
        intro hmem
        have hone := h x.1
        rw [← List.count_pos_iff] at hmem
        rw [List.map_cons, List.count_cons_self] at hone
        lia
      rw [List.foldl_cons, insertTable_of_not_mem hx, ih]
      · rw [List.append_assoc]
        rfl
      · intro n
        have hn := h n
        rw [List.map_cons, List.count_cons] at hn
        simp only [List.map_append, List.map_cons, List.map_nil, List.count_append,
          List.count_cons, List.count_nil]
        lia

theorem safe_compact (h : d.Inv []) (step : CompactStep) : Safe (d.compact step) := by
  unfold compact
  split
  · exact rfl
  · next r hr =>
      have hlife := h.working_of_compacting hr
      have hfits := h.fits
      rw [hr] at hfits
      have hordered := h.ordered r hr
      split
      · next outputs hstage _ =>
          apply h.restage hr (Nat.le_succ _)
          · intro i
            rw [hstage]
            rfl
          · intro x hx
            cases hx
          · intro n
            rw [hstage]
            simp only [Stage.numbers, Option.toList_some, Option.toList_none, List.append_nil,
              List.count_append, List.count_cons, List.count_nil]
            split
            · next heq =>
                rw [beq_iff_eq] at heq
                subst heq
                exact Or.inr ⟨rfl, Nat.lt_succ_self _, le_rfl⟩
            · exact Or.inl le_rfl
          · exact trivial
          · apply hfits.restage
            left
            intro failed heq
            rw [hstage] at heq
            cases heq
      · next outputs num props hstage =>
          apply h.restage hr le_rfl
          · intro i
            rw [hstage]
            rfl
          · intro x hx
            cases hx
          · intro n
            rw [hstage]
            left
            simp [Stage.numbers]
          · exact trivial
          · apply hfits.restage
            left
            intro failed heq
            rw [hstage] at heq
            cases heq
      · next outputs num hstage =>
          apply h.restage hr le_rfl
          · intro i
            rw [hstage]
            rfl
          · intro x hx
            cases hx
          · intro n
            exact Or.inl (Nat.zero_le _)
          · exact trivial
          · exact hfits.restage (Or.inr ⟨_, rfl⟩)
      · next outputs hstage =>
          apply h.restage hr le_rfl
          · intro i
            rw [hstage]
            rfl
          · intro x hx
            cases hx
          · intro n
            rw [hstage]
            left
            simp [Stage.numbers]
          · exact List.nil_append _
          · apply hfits.restage
            left
            intro failed heq
            rw [hstage] at heq
            cases heq
      · next outputs f todo newHandles hstage =>
          rw [hstage] at hordered
          apply h.opensTable _ _ _ _ _ hlife
          · unfold fresh freshTables
            rw [hr]
            simp only [Option.elim_some, hstage, Stage.tables]
            rw [← List.append_assoc]
            exact List.perm_append_singleton _ _
          · unfold inflight freshNumbers
            rw [hr]
            simp only [Option.elim_some, hstage, Stage.numbers]
            rfl
          · unfold Db.pinned
            rw [hr]
            rfl
          · intro r' hr'
            cases hr'
            show (newHandles ++ [(f.fileNum, d.handles.length)]).map Prod.fst ++ _ = _
            rw [List.map_append, List.append_assoc]
            exact hordered
          · apply hfits.restage
            left
            intro failed heq
            rw [hstage] at heq
            cases heq
      · next outputs f todo newHandles hstage =>
          apply h.restage hr le_rfl
          · intro i
            rw [hstage]
            simp only [Stage.tables, List.map_nil, List.count_nil, List.count_append]
            lia
          · intro x hx
            cases hx
          · intro n
            exact Or.inl (Nat.zero_le _)
          · exact trivial
          · exact hfits.restage (Or.inr ⟨_, rfl⟩)
      · next outputs newHandles logged hstage hmu =>
          split
          · apply h.restage hr le_rfl
            · intro i
              rw [hstage]
              simp only [Stage.tables, List.map_nil, List.count_nil, List.count_append]
              lia
            · intro x hx
              cases hx
            · intro n
              exact Or.inl (Nat.zero_le _)
            · exact trivial
            · exact hfits.restage (Or.inr ⟨_, rfl⟩)
          · next d' hd' =>
              rcases apply_eq_some hd' with ⟨v, next, hv, hnext, rfl⟩
              rw [hstage] at hordered
              have hnums : newHandles.map Prod.fst = outputs.map FileMeta.fileNum :=
                (List.append_nil _).symm.trans hordered
              have hfresh : d.fresh.Perm (newHandles ++
                  freshTables d.flushers (some { r with stage := .finishing false })) := by
                unfold fresh freshTables
                rw [hr]
                simp only [Option.elim_some, hstage, Stage.tables, List.append_nil]
                exact List.perm_append_comm
              have hinflight : d.inflight.Perm (newHandles.map Prod.fst ++
                  freshNumbers d.flushers (some { r with stage := .finishing false })) := by
                unfold inflight freshNumbers
                rw [hr, hnums]
                simp only [Option.elim_some, hstage, Stage.numbers, List.append_nil]
                exact List.perm_append_comm
              have hinsert : newHandles.foldl insertTable d.tables = d.tables ++ newHandles := by
                apply foldl_insertTable
                intro n
                have hone := h.nodup n
                have hn := hinflight.count_eq n
                unfold numbers at hone
                rw [List.count_append] at hone hn
                lia
              rw [hinsert]
              refine h.commit (h.wellFormed.applyEdit hv) hnext ?_ hfresh hinflight ?_ ?_ hmu
                ?_ hlife hlife
              · intro n hn
                rw [hnums]
                exact live_of_applyEdit hv hn
              · unfold Db.pinned
                rw [hr]
                rfl
              · intro r' hr'
                cases hr'
                exact trivial
              · intro r' hr'
                cases hr'
                exact ⟨_, rfl⟩
      · next failed err hstage hmu =>
          apply h.background le_rfl
          · intro i
            unfold fresh freshTables Db.pinned pinnedHandles
            rw [hr]
            simp only [Option.elim_some, Option.elim_none, hstage, Stage.tables,
              List.count_append, List.count_nil]
            lia
          · intro x hx
            unfold fresh
            unfold freshTables at hx ⊢
            rw [hr]
            simp only [Option.elim_none, List.append_nil] at hx
            exact List.mem_append_left _ hx
          · intro n
            unfold inflight freshNumbers
            rw [hr]
            simp only [Option.elim_none, List.append_nil, List.count_append]
            exact Or.inl (Nat.le_add_right _ _)
          · exact List.nodup_nil
          · intro r' hr'
            cases hr'
          · rw [hmu]
            exact trivial
          · exact hlife
      · exact rfl

/-!
## Runs
-/

theorem safe_exec (h : d.Inv []) (a : HandleAction) : Safe (d.exec a) := by
  cases a with
  | list ok => exact safe_list h ok
  | sweep => exact safe_sweep h
  | ref => exact safe_ref h
  | taken => exact safe_taken h
  | opened ok => exact safe_opened h ok
  | acquire => exact safe_acquire h
  | release j => exact safe_releaseReader h j
  | drop j => exact safe_drop h j
  | call => exact safe_call h
  | ret =>
      exact { h with
        sound := h.sound.congr rfl rfl rfl rfl
        calls := fun hpos => h.calls (Nat.lt_of_lt_of_le hpos (Nat.sub_le _ _)) }
  | writeFailed => exact { h with sound := h.sound.congr rfl rfl rfl rfl }
  | sealLocked rotated => exact safe_sealLocked h rotated
  | flushImm j step => exact safe_flushImm h j step
  | schedule => exact safe_maybeScheduleCompaction h
  | compact step => exact safe_compact h step
  | close => exact safe_close h
  | closed => exact safe_closed h

theorem inv_start (opts : Options) (o : Opened) : (start opts o).Inv [] where
  handles := Pool.counted_nil
  states := Pool.counted_nil
  wellFormed := o.wellFormed
  named := fun x hx => by cases hx
  nodup := fun n => Nat.zero_le _
  bound := fun n hn => o.numbered n hn
  apart := fun n hn => by cases hn
  listed := fun hs hhs => by cases hhs
  pinned := List.nodup_nil
  ordered := fun r hr => by cases hr
  sound := ⟨[], rfl, .nil⟩
  suits := rfl
  fits := trivial
  idle := Or.inr ⟨rfl, rfl⟩
  calls := fun hpos => by cases hpos
  shut := fun hlife => by cases hlife

theorem exists_opened {disk : Disk} {r : Recovered × Nat} (h : recover disk = .ok r)
    (hfiles : forall n, n ∈ r.1.version.live -> n ∈ disk.tables) :
    exists o : Opened, o.version = r.1.version ∧
      o.nextFileNum = disk.entries.foldl skipFile r.1.nextFileNum + 1 := by
  refine ⟨⟨r.1.version, _, wellFormed_of_recover h, fun n hn => ?_⟩, rfl, rfl⟩
  have hname : FileName.table n ∈ disk.entries :=
    List.mem_append_left _ (List.mem_map_of_mem (hfiles n hn))
  exact Nat.lt_succ_of_lt (lt_foldl_skipFile hname rfl _)

def Reached (opts : Options) (o : Opened) (d : Db) : Prop :=
  Reach exec (fun _ _ => True) (start opts o) d

theorem Reached.inv {opts : Options} {o : Opened} (h : Reached opts o d) : d.Inv [] := by
  apply Reach.invariant _ h (inv_start opts o)
  intro s a s' hs _ hexec
  have hsafe := safe_exec hs a
  rw [hexec] at hsafe
  exact hsafe

theorem Inv.count_tables (h : d.Inv []) (i : Nat) :
    (d.tables.map Prod.snd).count i = if i ∈ d.tables.map Prod.snd then 1 else 0 := by
  have hkeys : (d.tables.map Prod.fst).Nodup := by
    rw [List.nodup_iff_count_le_one]
    intro n
    have hn := h.nodup n
    rw [count_numbers] at hn
    lia
  have hvals : (d.tables.map Prod.snd).map (fun i => d.handles.vals[i]?) =
      (d.tables.map Prod.fst).map some := by
    rw [List.map_map, List.map_map]
    apply List.map_congr_left
    intro x hx
    exact h.named x (List.mem_append_left _ hx)
  have hnodup : (d.tables.map Prod.snd).Nodup := by
    apply List.Nodup.of_map (fun i => d.handles.vals[i]?)
    rw [hvals]
    exact hkeys.map (Option.some_injective Nat)
  exact hnodup.count

theorem Inv.count_live (h : d.Inv []) (i : Nat) :
    d.states.live.flatten.count i = d.states.live.countP fun hs => i ∈ hs := by
  have hnodup : forall hs, hs ∈ d.states.live -> hs.Nodup := by
    intro hs hhs
    rcases List.mem_map.mp hhs with ⟨c, hc, rfl⟩
    exact h.listed c.val (List.mem_map_of_mem (List.mem_filter.mp hc).left)
  generalize d.states.live = live at hnodup
  induction live with
  | nil => rfl
  | cons hs live ih =>
      have hcount := (hnodup hs List.mem_cons_self).count (a := i)
      have hrest := ih fun hs' hmem => hnodup hs' (List.mem_cons_of_mem hs hmem)
      rw [List.flatten_cons, List.count_append, hcount, hrest, List.countP_cons]
      simp only [decide_eq_true_eq]
      lia

theorem Inv.open_of_mem (h : d.Inv []) {i : Nat} (hi : i ∈ d.owners) :
    exists c, d.handles[i]? = some c ∧ c.closed = false := by
  have hlt := h.handles.bound i hi
  refine ⟨d.handles[i], List.getElem?_eq_getElem hlt, ?_⟩
  rw [← Bool.not_eq_true, h.handles.closed i _ (List.getElem?_eq_getElem hlt)]
  exact fun hnot => hnot hi

theorem Inv.owners_of_closed (h : d.Inv []) (hlife : d.life = .closed)
    (hreaders : d.readers = []) (hdropping : d.dropping = []) : d.owners = [] := by
  rcases h.shut hlife with ⟨⟨hheld, htables⟩, hrs⟩
  have hidle : d.flushers = [] ∧ d.compacting = none := by
    apply h.idle.resolve_left
    rw [hlife]
    exact id
  have hlive : d.states.live = [] := by
    unfold Pool.live
    rw [List.map_eq_nil_iff, List.filter_eq_nil_iff]
    intro c hc
    rcases List.mem_iff_getElem?.mp hc with ⟨s, hs⟩
    have hclosed : c.closed = true := by
      rw [h.states.closed s c hs, hrs, hreaders]
      exact List.not_mem_nil
    rw [hclosed]
    exact Bool.false_ne_true
  unfold owners owned fresh Db.pinned
  rw [htables, hlive, hheld, hdropping, hidle.left, hidle.right]
  rfl

/-- In every state that is reached no step releases below zero; a handle has one
reference for the cache, one for every live read state that lists it, one for the
compaction that pins it and those that are still owned, and is closed exactly when
it has none.  What a reader or a compaction can read is open, and in the end every
file is closed. -/
theorem handles_counted {opts : Options} {o : Opened} (h : Reached opts o d) :
    (forall a, d.exec a ≠ .error .belowZero) ∧
    (forall i c, d.handles[i]? = some c ->
      c.refs = (((if i ∈ d.tables.map Prod.snd then 1 else 0) +
        (d.states.live.countP fun hs => i ∈ hs) + (if i ∈ d.pinned then 1 else 0) +
        d.owned.count i : Nat) : Int) ∧
      (c.closed = true <-> c.refs = 0)) ∧
    (forall i, (i ∈ d.pinned ∨ exists s, s ∈ d.readers ∧ i ∈ d.levels s) ->
      exists c, d.handles[i]? = some c ∧ c.closed = false) ∧
    (d.life = .closed -> d.readers = [] -> d.dropping = [] ->
      forall c, c ∈ d.handles -> c.closed = true) := by
  have hinv := h.inv
  refine ⟨?_, ?_, ?_, ?_⟩
  · intro a herror
    have hsafe := safe_exec hinv a
    rw [herror] at hsafe
    cases hsafe
  · intro i c hc
    have hcount := hinv.handles.count i c hc
    constructor
    · rw [hcount]
      unfold owners
      rw [List.count_append, List.count_append, List.count_append, hinv.count_tables,
        hinv.count_live, hinv.pinned.count, Nat.add_assoc, Nat.add_assoc]
    · rw [hinv.handles.closed i c hc, hcount, ← List.count_eq_zero]
      exact Int.natCast_eq_zero.symm
  · rintro i (hi | ⟨s, hs, hi⟩)
    · apply hinv.open_of_mem
      apply List.mem_append_right
      apply List.mem_append_right
      exact List.mem_append_left _ hi
    · have hs' : s ∈ [] ++ (d.rs.toList ++ d.readers) :=
        List.mem_append_right _ (List.mem_append_right _ hs)
      rcases hinv.states.mem_live hs' with ⟨hs, hval, hlive⟩
      rw [levels_of_vals hval] at hi
      apply hinv.open_of_mem
      apply List.mem_append_right
      exact List.mem_append_left _ (List.mem_flatten.mpr ⟨hs, hlive, hi⟩)
  · intro hlife hreaders hdropping c hc
    rcases List.mem_iff_getElem?.mp hc with ⟨i, hi⟩
    rw [hinv.handles.closed i c hi, hinv.owners_of_closed hlife hreaders hdropping]
    exact List.not_mem_nil

def emptyOpened : Opened where
  version := {}
  nextFileNum := 2
  wellFormed := Version.wellFormed_empty
  numbered := fun n hn => by cases hn

/-- A memtable is flushed, and a reader outlives `Close`. -/
def readerOutlives : List HandleAction :=
  [.sweep, .taken, .opened true, .call, .sealLocked true, .taken, .ret,
    .flushImm 0 .start,
    .flushImm 0 (.openTable (some {
      fileSize := 1
      smallest := [0x61, 1, 1, 0, 0, 0, 0, 0, 0]
      largest := [0x61, 1, 1, 0, 0, 0, 0, 0, 0] })),
    .flushImm 0 (.apply (some false)), .list true, .sweep, .ref, .taken,
    .flushImm 0 (.finish false), .acquire, .close, .closed, .drop 0]

theorem handles_counted_outlives :
    (exists d, Reached {} emptyOpened d ∧ d.life = .closed ∧ d.readers = [2] ∧
      d.levels 2 = [0] ∧ exists c, d.handles[0]? = some c ∧ c.closed = false) ∧
    exists d, Reached {} emptyOpened d ∧ d.handles.length = 1 ∧
      forall c, c ∈ d.handles -> c.closed = true := by
  constructor
  · have hrun : okWith (runWhile exec (fun _ _ => True) readerOutlives (start {} emptyOpened))
        (fun d => decide (d.life = .closed ∧ d.readers = [2] ∧ d.levels 2 = [0])) := by
      decide +kernel
    rcases exists_of_okWith hrun with ⟨d, hd, hcheck⟩
    rcases of_decide_eq_true hcheck with ⟨hlife, hreaders, hlevels⟩
    have hreach : Reached {} emptyOpened d := Reach.of_runWhile hd
    refine ⟨d, hreach, hlife, hreaders, hlevels, ?_⟩
    apply (handles_counted hreach).2.2.1 0
    right
    rw [hreaders]
    refine ⟨2, List.mem_cons_self, ?_⟩
    rw [hlevels]
    exact List.mem_cons_self
  · have hrun : okWith (runWhile exec (fun _ _ => True)
        (readerOutlives ++ [.release 0, .drop 0]) (start {} emptyOpened))
        (fun d => decide (d.life = .closed ∧ d.readers = [] ∧ d.dropping = [] ∧
          d.handles.length = 1)) := by
      decide +kernel
    rcases exists_of_okWith hrun with ⟨d, hd, hcheck⟩
    rcases of_decide_eq_true hcheck with ⟨hlife, hreaders, hdropping, hlength⟩
    have hreach : Reached {} emptyOpened d := Reach.of_runWhile hd
    exact ⟨d, hreach, hlength, (handles_counted hreach).2.2.2 hlife hreaders hdropping⟩

end Db

end Engine
end Basalt
