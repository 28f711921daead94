import Basalt.Lib.Run
import Basalt.Raft.PersistedPrefix

/-!
# Persisting before acknowledging

A replica is a node together with its state file.  Its caller feeds the node,
and drains it in the order `Ready`, `SaveReady`, send, `Advance`; compaction
rewrites the file from the log in memory.  The question is whether the file
describes the log in memory when the messages leave.
-/

namespace Basalt
namespace Raft

open Lib

structure Replica where
  node : Node
  storage : Storage

namespace Replica

/-- The first half of a round of the drain loop: the batch is on disk and its
messages may be sent. -/
def save (r : Replica) : Except Panic (Ready × Replica) := do
  let (rd, node) <- r.node.ready
  let storage <- r.storage.saveReady rd
  pure (rd, { node := node, storage := storage })

def drain (r : Replica) : Except Panic Replica := do
  let (rd, r) <- r.save
  let node <- r.node.advance rd
  pure { r with node := node }

def compact (r : Replica) (index : Nat) : Except Panic Replica := do
  let node <- r.node.compactTo index
  let ents <- node.entries
  let storage <- r.storage.rewrite node.hardState node.log.snapIndex
    node.log.snapTerm ents
  pure { node := node, storage := storage }

inductive Event where
  | step (m : Message)
  | tick
  | campaign
  | propose (data : Bytes)
  | proposeConfChange (cc : ConfChange)
  | transferLeader (target : Nat)
  | readIndex (id : Nat)
  | drain
  | compact (index : Nat)

def feed (n : Node) : Event -> Except Panic Node
  | .step m => do
      let (_, n) <- n.step m
      pure n
  | .tick => n.tick
  | .campaign => n.campaign
  | .propose data => do
      let (_, n) <- n.propose data
      pure n
  | .proposeConfChange cc => do
      let (_, n) <- n.proposeConfChange cc
      pure n
  | .transferLeader target => do
      let (_, n) <- n.transferLeader target
      pure n
  | .readIndex id => do
      let (_, n) <- n.readIndex id
      pure n
  | .drain | .compact _ => pure n

def exec (r : Replica) (ev : Event) : Except Panic Replica :=
  match ev with
  | .drain => r.drain
  | .compact index => r.compact index
  | ev => do
      let node <- feed r.node ev
      pure { r with node := node }

/-- A replica as the process starts it, from a state file that is empty or was
closed in order. -/
structure Opened (cfg : Config) (file : Bytes) (appliedIndex : Nat)
    (r : Replica) : Prop where
  clean : Wal.framing.Clean file
  opened : exists rec, openStorage file file.length = .ok (r.storage, rec) ∧
    Node.restoreNode cfg rec appliedIndex = .ok r.node

end Replica

/-!
## The invariant
-/

namespace Replica

variable {r r' start : Replica} {cfg : Config} {file : Bytes} {appliedIndex : Nat}

def Inv (r : Replica) : Prop :=
  exists rec, r.storage.Holds rec ∧ Backed r.node.log r.node.stabled rec

theorem save_holds {rec : Recovered} {rd : Ready} (hholds : r.storage.Holds rec)
    (hback : Backed r.node.log r.node.stabled rec) (hrange : r.node.InRange)
    (h : r.save = .ok (rd, r')) :
    r'.storage.Holds
        { rec with
          hardState := rd.hardState.getD rec.hardState
          entries := r.node.log.entries } ∧
      r'.node = { r.node with msgs := [] } ∧
      rd.entries = r.node.log.entries.drop (r.node.stabled - r.node.log.snapIndex) ∧
      (forall e, e ∈ rd.committedEntries ->
        e ∈ r.node.log.entries ∧ e.index ≤ r.node.stabled) := by
  rcases bind_eq_ok.mp h with ⟨x, hx, h⟩
  rcases bind_eq_ok.mp h with ⟨storage, hstorage, hpure⟩
  rcases bind_eq_ok.mp hx with ⟨ents, hents, hx⟩
  rcases bind_eq_ok.mp hx with ⟨committed, hcommitted, hx⟩
  rw [hback.unstableEntries_eq] at hents
  cases hents
  cases hx
  cases hpure
  have hsnap := hback.snap_le
  have hstored := hback.stored_le
  have hlast := r.node.log.lastIndex_eq
  have hle := hback.stabled_le
  refine ⟨?_, rfl, rfl, fun e he => hback.nextCommitted_le hcommitted he⟩
  have hsaved := hholds.saveReady (k := r.node.stabled - r.node.log.snapIndex)
    (by have := hback.snapIndex_eq; lia)
    (by
      intro hnil
      have hlen := congrArg List.length hnil
      rw [List.length_drop, List.length_nil] at hlen
      rw [hback.complete (by lia)]
      lia)
    (by
      have hdrop := hback.numbered.drop (r.node.stabled - r.node.log.snapIndex)
      rw [hback.snapIndex_eq, Nat.add_right_comm]
      exact hdrop)
    (fun e he => hrange.entries hback.numbered (List.mem_of_mem_drop he))
    (by
      intro hs hhs
      dsimp only at hhs
      split at hhs
      · cases hhs
        exact hrange.hardState
      · cases hhs)
    hstorage
  rw [hback.take_eq, List.take_append_drop] at hsaved
  exact hsaved

theorem Inv.drain (hinv : r.Inv) (hrange : r.node.InRange)
    (h : r.drain = .ok r') : r'.Inv := by
  rcases hinv with ⟨rec, hholds, hback⟩
  rcases bind_eq_ok.mp h with ⟨x, hx, h⟩
  rcases bind_eq_ok.mp h with ⟨node, hnode, hpure⟩
  cases hpure
  rcases save_holds hholds hback hrange hx with ⟨hsaved, hsame, hents, hcommitted⟩
  refine ⟨_, hsaved, ?_⟩
  rcases bind_eq_ok.mp hnode with ⟨n1, hn1, hrest⟩
  rcases bind_eq_ok.mp hrest with ⟨n2, hn2, hpure⟩
  cases hpure
  rw [hents, hsame] at hn1
  let saved : Recovered :=
    { rec with
      hardState := x.1.hardState.getD rec.hardState
      entries := r.node.log.entries }
  have hsnap : saved.snapIndex = r.node.log.snapIndex := hback.snapIndex_eq
  rcases Backed.advanceStable (n :=
      { r.node with msgs := [], prevHard := x.1.hardState.getD r.node.prevHard })
    hsnap rfl hback.numbered ⟨hback.snap_le, hback.stabled_le⟩ hn1 with
    ⟨hback1, hstabled1⟩
  have happlied : forall e, e ∈ x.1.committedEntries -> e.index ≤ n1.stabled := by
    intro e he
    rw [hstabled1]
    exact Nat.le_trans (hcommitted e he).right hback.stabled_le
  have hback2 := hback1.advanceApplied happlied hn2
  exact hback2

theorem backed_compactTo {n node : Node} {rec : Recovered} {index : Nat} {ents : List Entry}
    (hback : Backed n.log n.stabled rec) (hrange : n.InRange)
    (hnode : n.compactTo index = .ok node) (hents : node.entries = .ok ents) :
    node.InRange ∧ ents = node.log.entries ∧
      NumberedFrom (node.log.snapIndex + 1) node.log.entries ∧
      node.log.snapIndex < rangeLE 8 ∧
      Backed node.log node.stabled
        { hardState := node.hardState
          snapIndex := node.log.snapIndex
          snapTerm := node.log.snapTerm
          entries := node.log.entries } := by
  rcases bind_eq_ok.mp hnode with ⟨log, hlog, hpure⟩
  cases hpure
  rcases RaftLog.compactTo_tail hback.numbered hlog with
    ⟨hnum, hlast, happlied, hsub, hsnapTerm⟩
  have hrange' : ({ n with log := log } : Node).InRange := by
    rcases hrange with ⟨hterm, hvote, hbound, hsnap, hterms⟩
    refine ⟨hterm, hvote, ?_, ?_, fun e he => hterms e (hsub e he)⟩
    · change log.lastIndex < _
      rw [hlast]
      exact hbound
    · rcases hsnapTerm with heq | ⟨e, he, heq⟩
      · change log.snapTerm < _
        rw [heq]
        exact hsnap
      · rw [← heq]
        exact hterms e he
  have hlastIndex := log.lastIndex_eq
  have hoff := log.offset_eq
  have hall : ents = log.entries := by
    change log.slice log.offset (log.lastIndex + 1) = .ok ents at hents
    rw [RaftLog.slice_ok (Nat.le_refl _) (by lia) (Nat.le_refl _)] at hents
    cases hents
    rw [Nat.sub_self, List.drop_zero, List.take_of_length_le (by lia)]
  refine ⟨hrange', hall, hnum, ?_, ?_⟩
  · exact Nat.lt_of_le_of_lt (by lia) hrange'.right.right.left
  · exact
      { snapIndex_eq := rfl
        numbered := hnum
        applied_le := by
          change log.applied ≤ _
          rw [happlied]
          exact hback.applied_le
        stabled_le := by
          change _ ≤ log.lastIndex
          rw [hlast]
          exact hback.stabled_le
        stored_le := by
          have hle := hback.stabled_le
          change n.stabled ≤ log.snapIndex + log.entries.length
          lia
        take_eq := rfl
        complete := fun _ => rfl }

theorem Inv.compact (hinv : r.Inv) (hrange : r.node.InRange) {index : Nat}
    (h : r.compact index = .ok r') : r'.Inv := by
  rcases hinv with ⟨rec, _, hback⟩
  rcases bind_eq_ok.mp h with ⟨node, hnode, h⟩
  rcases bind_eq_ok.mp h with ⟨ents, hents, h⟩
  rcases bind_eq_ok.mp h with ⟨storage, hstorage, hpure⟩
  cases hpure
  rcases backed_compactTo hback hrange hnode hents with
    ⟨hrange', rfl, hnum, hsnap, hback'⟩
  exact ⟨_, Storage.Holds.rewrite hrange'.hardState hsnap hrange'.right.right.right.left
    (fun e he => hrange'.entries hnum he) hnum hstorage, hback'⟩

theorem Opened.inv (h : Opened cfg file appliedIndex r) : r.Inv := by
  rcases h.opened with ⟨rec, hopen, hnode⟩
  refine ⟨rec, holds_openStorage h.clean hopen, ?_⟩
  have hnum : rec.Numbered := by
    rcases bind_eq_ok.mp hopen with ⟨rec', hreplay, hpure⟩
    have hrec := (Prod.mk.inj (Except.ok.inj hpure)).right
    rw [← hrec]
    exact replay_numbered hreplay
  rcases Node.restoreNode_lasting hnode with ⟨log, hsnap, hents, hlasting⟩
  have hlog : r.node.log = log := congrArg (fun x => x.2.2.2.2.1) hlasting
  have hstabled : r.node.stabled = log.lastIndex :=
    congrArg (fun x => x.2.2.2.2.2) hlasting
  rw [hlog, hstabled]
  apply Backed.full hsnap.symm hents.symm
  rw [hsnap, hents]
  exact hnum

/-!
## Runs
-/

/-- The condition on a call: an append that is accepted agrees with what is
persisted, and what is written fits its fields. -/
def Event.Conforms (n : Node) : Event -> Prop
  | .step m => m.WellFormed ∧ n.core.Respects m
  | .drain | .compact _ => n.InRange
  | _ => True

instance (n : Node) (ev : Event) : Decidable (ev.Conforms n) := by
  cases ev <;> unfold Event.Conforms Message.WellFormed Core.Respects Node.InRange <;>
    infer_instance

def Conforming : Replica -> Replica -> Prop :=
  Reach exec fun r ev => ev.Conforms r.node

theorem backed_feed {ev : Event} {n node : Node} {rec : Recovered}
    (hback : Backed n.log n.stabled rec) (hev : ev.Conforms n) (h : feed n ev = .ok node) :
    Backed node.log node.stabled rec := by
  cases ev with
  | step m =>
      rcases bind_eq_ok.mp h with ⟨x, hx, hpure⟩
      cases hpure
      exact hback.message hev.left hev.right hx
  | tick => exact hback.quiet Node.tick_effect h
  | campaign =>
      by_cases hrole : n.role = .leader
      · change n.campaign = .ok node at h
        rw [Node.campaign] at h
        split at h
        · cases h
          exact hback
        · rw [Node.becomePreCandidate, if_pos hrole] at h
          cases h
      · exact hback.quiet (Node.campaign_effect hrole) h
  | propose data =>
      rcases bind_eq_ok.mp h with ⟨x, hx, hpure⟩
      cases hpure
      exact hback.proposal rfl hx
  | proposeConfChange cc =>
      rcases bind_eq_ok.mp h with ⟨x, hx, hpure⟩
      cases hpure
      exact hback.proposeConfChange hx
  | transferLeader target =>
      rcases bind_eq_ok.mp h with ⟨x, hx, hpure⟩
      cases hpure
      exact hback.quiet (Node.transferLeader_effect target) hx
  | readIndex id =>
      rcases bind_eq_ok.mp h with ⟨x, hx, hpure⟩
      cases hpure
      exact hback.readIndex hx
  | drain | compact index =>
      cases h
      exact hback

theorem Inv.feed {ev : Event} {node : Node} (hinv : r.Inv)
    (hev : ev.Conforms r.node) (h : feed r.node ev = .ok node) :
    ({ r with node := node } : Replica).Inv := by
  rcases hinv with ⟨rec, hholds, hback⟩
  exact ⟨rec, hholds, backed_feed hback hev h⟩

theorem Inv.exec {ev : Event} (hinv : r.Inv) (hev : ev.Conforms r.node)
    (h : r.exec ev = .ok r') : r'.Inv := by
  cases ev with
  | drain => exact hinv.drain hev h
  | compact index => exact hinv.compact hev h
  | _ =>
      rcases bind_eq_ok.mp h with ⟨node, hnode, hpure⟩
      cases hpure
      exact hinv.feed hev hnode

theorem Conforming.inv (h : Conforming start r) (hstart : start.Inv) : r.Inv :=
  h.invariant (fun _ _ _ hinv hev hexec => hinv.exec hev hexec) hstart

/-- What is acknowledged is on disk: the entries the node counts as its own
match and hands out as committed are stored, and when the messages of a batch
leave, the file yields the log in memory. -/
structure PersistsBeforeSend (r : Replica) : Prop where
  stable : exists rec, replay r.storage.file = .ok rec ∧
    rec.snapIndex = r.node.log.snapIndex ∧
    forall k, r.node.log.snapIndex + k < r.node.stabled ->
      k < r.node.log.entries.length ∧ rec.entries[k]? = r.node.log.entries[k]?
  saved : forall rd r', r.save = .ok (rd, r') ->
    exists rec, replay r'.storage.file = .ok rec ∧
      rec.snapIndex = r'.node.log.snapIndex ∧
      rec.entries = r'.node.log.entries ∧
      forall e, e ∈ rd.committedEntries -> e ∈ rec.entries

theorem persistsBeforeSend_of_conforming (hopen : Opened cfg file appliedIndex start)
    (hrun : Conforming start r) (hrange : r.node.InRange) :
    r.PersistsBeforeSend := by
  rcases hrun.inv hopen.inv with ⟨rec, hholds, hback⟩
  constructor
  · refine ⟨rec, hholds.describes.replay_eq, hback.snapIndex_eq, fun k hk => ?_⟩
    have hlen := hback.length_le
    refine ⟨by lia, ?_⟩
    have hlt : k < r.node.stabled - r.node.log.snapIndex := by lia
    rw [← List.getElem?_take_of_lt hlt, hback.take_eq, List.getElem?_take_of_lt hlt]
  · intro rd r' hsave
    rcases save_holds hholds hback hrange hsave with ⟨hsaved, hsame, _, hcommitted⟩
    refine ⟨_, hsaved.describes.replay_eq, ?_, ?_, fun e he => (hcommitted e he).left⟩
    · rw [hsame]
      exact hback.snapIndex_eq
    · rw [hsame]

def bootFollower : Except Panic Replica := do
  let node <- Node.restoreNode
    { id := 2, peers := [1, 2, 3], rand := some fun _ _ => 0 } {} 0
  pure { node := node, storage := {} }

theorem opened_bootFollower {r : Replica} (h : bootFollower = .ok r) :
    Opened { id := 2, peers := [1, 2, 3], rand := some fun _ _ => 0 } [] 0 r := by
  rcases bind_eq_ok.mp h with ⟨node, hnode, hpure⟩
  cases hpure
  exact ⟨rfl, {}, rfl, hnode⟩

def firstAppend : Message :=
  { type := .app
    fromId := 1
    toId := 2
    term := 1
    entries := [{ index := 1, term := 1, data := [1] },
      { index := 2, term := 1, data := [2] }] }

theorem persistsBeforeSend_firstAppend :
    exists start r, bootFollower = .ok start ∧
      runWhile exec (fun r ev => ev.Conforms r.node)
        [.step firstAppend, .drain, .step { firstAppend with term := 3, commit := 1 }]
        start = .ok r ∧
      r.node.log.committed = 1 ∧ r.PersistsBeforeSend := by
  have hrun : okWith (bootFollower >>= runWhile exec (fun r ev => ev.Conforms r.node)
      [.step firstAppend, .drain, .step { firstAppend with term := 3, commit := 1 }])
      (fun r => r.node.log.committed = 1 ∧ Event.drain.Conforms r.node) := by
    decide +kernel
  rcases exists_of_okWith hrun with ⟨r, hr, hcheck⟩
  rcases bind_eq_ok.mp hr with ⟨start, hstart, hr⟩
  rcases of_decide_eq_true hcheck with ⟨hcommitted, hrange⟩
  exact ⟨start, r, hstart, hr, hcommitted,
    persistsBeforeSend_of_conforming (opened_bootFollower hstart)
      (Reach.of_runWhile hr) hrange⟩

/-- The leader of term two replaces the second entry. -/
def conflictingAppend : Message :=
  { type := .app
    fromId := 3
    toId := 2
    term := 2
    logIndex := 1
    logTerm := 1
    entries := [{ index := 2, term := 2, data := [3] }] }

/-- The replacement is acknowledged but not written: the node takes index two
for persisted. -/
theorem not_persistsBeforeSend_conflictingAppend :
    exists start r, bootFollower = .ok start ∧
      [.step firstAppend, .drain, .step conflictingAppend].foldlM exec start = .ok r ∧
      (exists m, m ∈ r.node.msgs ∧ m.type = .appResp ∧ m.reject = false ∧
        m.logIndex = 2) ∧
      ¬ r.PersistsBeforeSend := by
  have hrun : okWith (bootFollower >>=
        [.step firstAppend, .drain, .step conflictingAppend].foldlM exec)
      (fun r => r.node.msgs.any (fun m => m.type = .appResp ∧ m.reject = false ∧
          m.logIndex = 2) ∧
        okWith r.save (fun x => okWith (replay x.2.storage.file)
          (fun rec => rec.entries ≠ x.2.node.log.entries))) := by
    decide +kernel
  rcases exists_of_okWith hrun with ⟨r, hr, hcheck⟩
  rcases bind_eq_ok.mp hr with ⟨start, hstart, hr⟩
  rcases of_decide_eq_true hcheck with ⟨hack, hsave⟩
  rcases List.any_eq_true.mp hack with ⟨m, hm, hmack⟩
  rcases exists_of_okWith hsave with ⟨x, hx, hreplay⟩
  rcases exists_of_okWith hreplay with ⟨rec, hrec, hne⟩
  refine ⟨start, r, hstart, hr, ⟨m, hm, of_decide_eq_true hmack⟩, ?_⟩
  intro hpersists
  rcases hpersists.saved x.1 x.2 hx with ⟨rec', hrec', _, heq, _⟩
  rw [hrec] at hrec'
  cases hrec'
  exact of_decide_eq_true hne heq

end Replica

end Raft
end Basalt
