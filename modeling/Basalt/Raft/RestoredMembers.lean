import Basalt.Raft.ConfChange
import Basalt.Raft.ElectionSafety
import Basalt.Raft.Restart

/-!
# The members of a restarted node

The members are not saved.  A restored node starts from the peers of its
configuration and applies every membership change that the recovered log holds.
Changes whose entries are compacted are not among these, and changes that are not
committed are.
-/

namespace Basalt
namespace Raft

open Lib Relation

/-- A node with its state file.  `dropped` collects the entries that it has
compacted; no operation reads them. -/
structure Member where
  node : Node
  file : Except StorageError Recovered := .ok {}
  dropped : List Entry := []

namespace Member

inductive Action where
  /-- A call of the owner, messages included. -/
  | feed (ev : Replica.Event)
  | drain
  | compactTo (index : Nat)
  | rewrite
  /-- The node is restored with its state machine at `applied`.  It may have saved
  a last batch that it did not acknowledge. -/
  | crash (applied : Nat) (saves : Bool)

def save (x : Member) : Except Panic (Ready × Member) := do
  let (rd, n) <- x.node.ready
  pure (rd, { x with node := n, file := x.file >>= fun rec => rec.saveReady rd })

def drain (x : Member) : Except Panic Member := do
  let (rd, x) <- x.save
  let n <- x.node.advance rd
  pure { x with node := n }

def compactTo (x : Member) (index : Nat) : Except Panic Member := do
  let n <- x.node.compactTo index
  pure
    { x with
      node := n
      dropped := x.dropped ++
        x.node.log.entries.take (n.log.snapIndex - x.node.log.snapIndex) }

def rewrite (x : Member) : Except Panic Member := do
  let ents <- x.node.entries
  pure
    { x with
      file := .ok
        { hardState := x.node.hardState
          snapIndex := x.node.log.snapIndex
          snapTerm := x.node.log.snapTerm
          entries := ents } }

def restart (cfg : Config) (x : Member) (applied : Nat) : Except CrashError Member := do
  let rec <- x.file.mapError .storage
  let n <- (Node.restoreNode cfg rec applied).mapError .panic
  pure { x with node := n, dropped := x.dropped.take rec.snapIndex }

def atCrash (x : Member) : Bool -> Except Panic Member
  | false => pure x
  | true => do
      let (_, x) <- x.save
      pure x

def exec (cfg : Config) (x : Member) : Action -> Except CrashError Member
  | .feed ev => do
      let n <- (Replica.feed x.node ev).mapError .panic
      pure { x with node := n }
  | .drain => x.drain.mapError .panic
  | .compactTo index => (x.compactTo index).mapError .panic
  | .rewrite => x.rewrite.mapError .panic
  | .crash applied saves => do
      let x <- (x.atCrash saves).mapError .panic
      x.restart cfg applied

def Initial (cfg : Config) (x : Member) : Prop :=
  Node.newNodeConfig cfg = .ok x.node ∧ x.file = .ok {} ∧ x.dropped = []

/-- The members that the changes up to the commit index make of the configured
peers, compacted or not. -/
def agreedMembers (cfg : Config) (x : Member) : Members :=
  ((x.dropped ++ x.node.log.entries).take x.node.log.committed).foldl Members.applyEntry
    (cfg.peers.toFinset, ∅)

/-- The node has the members, and the quorum, that were agreed on. -/
def Restored (cfg : Config) (x : Member) : Prop :=
  x.node.members = x.agreedMembers cfg ∧
    x.node.quorum = (x.agreedMembers cfg).1.card / 2 + 1

instance (cfg : Config) (x : Member) : Decidable (x.Restored cfg) :=
  inferInstanceAs (Decidable (_ ∧ _))

/-- A compaction drops no membership change, and a crash finds none above the
commit index in the file. -/
def KeepsChanges (x : Member) : Action -> Prop
  | .compactTo index =>
      forall e, e ∈ x.node.log.entries.take (index - x.node.log.snapIndex) ->
        e.type ≠ .confChange
  | .crash _ saves =>
      forall y, x.atCrash saves = .ok y -> forall rec, y.file = .ok rec ->
        forall e, e ∈ rec.entries.drop (rec.hardState.commit - rec.snapIndex) ->
          e.type ≠ .confChange
  | _ => True

open scoped Evaluate in
instance (x : Member) : (a : Action) -> Decidable (x.KeepsChanges a)
  | .compactTo index =>
      inferInstanceAs (Decidable (forall e, e ∈
        x.node.log.entries.take (index - x.node.log.snapIndex) -> e.type ≠ .confChange))
  | .crash _ saves =>
      inferInstanceAs (Decidable (forall y, x.atCrash saves = .ok y ->
        forall rec, y.file = .ok rec ->
        forall e, e ∈ rec.entries.drop (rec.hardState.commit - rec.snapIndex) ->
          e.type ≠ .confChange))
  | .feed _ | .drain | .rewrite => inferInstanceAs (Decidable True)

end Member

/-!
## Replaying the changes
-/

theorem Members.foldl_applyEntry_plain {es : List Entry} (x : Members)
    (h : forall e, e ∈ es -> e.type ≠ .confChange) : es.foldl Members.applyEntry x = x := by
  induction es generalizing x with
  | nil => rfl
  | cons e es ih =>
      rw [List.foldl_cons, Members.applyEntry, if_neg (h e (List.mem_cons_self ..))]
      exact ih x fun d hd => h d (List.mem_cons_of_mem e hd)

namespace Node

variable {n : Node} {cfg : Config} {rec : Recovered} {applied : Nat}

theorem members_replayConfEntry (h : n.Distinct) (i : Nat) (e : Entry) :
    (n.replayConfEntry i e).members = n.members.applyEntry e ∧
      (n.replayConfEntry i e).Distinct := by
  unfold replayConfEntry Members.applyEntry
  split
  · cases decodeConfChange e.data with
    | none => exact ⟨rfl, h⟩
    | some cc =>
        dsimp only
        split
        · exact members_applyConfChange h cc
        · exact members_applyConfChange h cc
  · exact ⟨rfl, h⟩

theorem members_foldl_replayConfEntry (offset k : Nat) (es : List Entry) (h : n.Distinct) :
    ((es.zipIdx k).foldl (fun n x => n.replayConfEntry (offset + x.2) x.1) n).members =
        es.foldl Members.applyEntry n.members ∧
      ((es.zipIdx k).foldl (fun n x => n.replayConfEntry (offset + x.2) x.1) n).Distinct := by
  induction es generalizing n k with
  | nil => exact ⟨rfl, h⟩
  | cons e es ih =>
      rcases members_replayConfEntry h (offset + k) e with ⟨hmembers, hdistinct⟩
      rw [List.zipIdx_cons, List.foldl_cons, List.foldl_cons, ← hmembers]
      exact ih (k + 1) hdistinct

theorem restoreNode_eq (h : restoreNode cfg rec applied = .ok n) :
    exists (log : RaftLog) (fresh : Node), recoveredLog rec = .ok log ∧
      n = resetElectionTimer
        { log.entries.zipIdx.foldl (fun n x => n.replayConfEntry (log.offset + x.2) x.1) fresh with
          prevHard := (log.entries.zipIdx.foldl
            (fun n x => n.replayConfEntry (log.offset + x.2) x.1) fresh).hardState } ∧
      fresh.voters = cfg.peers.dedup ∧ fresh.learners = [] ∧
      fresh.log.snapIndex = log.snapIndex ∧ fresh.log.entries = log.entries ∧
      fresh.log.committed = log.committed := by
  unfold restoreNode newNode at h
  split at h
  · cases h
  · rcases bind_eq_ok.mp h with ⟨log, hlog, h⟩
    split at h
    · cases h
    · split at h
      · cases h
      · cases h
        exact ⟨log, _, hlog, rfl, rfl, rfl, rfl, rfl, rfl⟩

/-- A restored node has the recovered log and applies its changes, all of them. -/
theorem restoreNode_members (h : restoreNode cfg rec applied = .ok n) :
    n.log.snapIndex = rec.snapIndex ∧ n.log.entries = rec.entries ∧
      n.log.committed = max rec.snapIndex rec.hardState.commit ∧ n.Distinct ∧
      n.members = rec.entries.foldl Members.applyEntry (cfg.peers.toFinset, ∅) := by
  rcases restoreNode_eq h with ⟨log, fresh, hlog, hn, hvoters, hlearners, hsnap, hents, hcommit⟩
  have hfresh : fresh.Distinct := by
    rw [Distinct, hvoters, hlearners]
    exact ⟨List.nodup_dedup _, List.nodup_nil⟩
  have hpeers : fresh.members = (cfg.peers.toFinset, ∅) := by
    have hset : cfg.peers.dedup.toFinset = cfg.peers.toFinset := by
      ext p
      rw [List.mem_toFinset, List.mem_dedup, List.mem_toFinset]
    rw [members, hvoters, hlearners, hset]
    rfl
  rcases resetElectionTimer_fields
    { log.entries.zipIdx.foldl (fun n x => n.replayConfEntry (log.offset + x.2) x.1) fresh with
      prevHard := (log.entries.zipIdx.foldl
        (fun n x => n.replayConfEntry (log.offset + x.2) x.1) fresh).hardState } with
    ⟨_, _, _, htimer⟩
  have hlasting := lasting_foldl_replayConfEntry log.offset log.entries.zipIdx fresh
  have hsame : n.log = fresh.log := by
    rw [hn, htimer]
    exact congrArg (fun x => x.2.2.2.2.1) hlasting
  rcases recoveredLog_eq hlog with ⟨hlogSnap, hlogEnts⟩
  rcases members_foldl_replayConfEntry log.offset 0 log.entries hfresh with
    ⟨hmembers, hdistinct⟩
  rw [hsame, hsnap, hents, hcommit]
  refine ⟨hlogSnap, hlogEnts, recoveredLog_committed hlog, ?_, ?_⟩
  · rw [hn, htimer]
    exact hdistinct
  · rw [hn, htimer, ← hlogEnts, ← hpeers]
    exact hmembers

theorem quorum_of_distinct (h : n.Distinct) : n.quorum = n.members.1.card / 2 + 1 := by
  rw [quorum, members, List.toFinset_card_of_nodup h.left]

end Node

/-!
## Runs
-/

namespace Member

variable {x x' : Member} {cfg : Config} {rec : Recovered} {a : Action}

/-- The dropped entries reach up to the log, hold no change, and the file does not
begin after them. -/
structure Inv (x : Member) : Prop where
  snap : x.node.log.snapIndex = x.dropped.length
  file : forall rec, x.file = .ok rec -> rec.snapIndex ≤ x.dropped.length
  plain : forall e, e ∈ x.dropped -> e.type ≠ .confChange

theorem saveReady_snapIndex {rec' : Recovered} {rd : Ready} (h : rec.saveReady rd = .ok rec') :
    rec'.snapIndex = rec.snapIndex := by
  rcases bind_eq_ok.mp h with ⟨mid, hmid, hpure⟩
  cases hpure
  exact (Recovered.saveEntries_spec hmid).right.left

namespace Inv

theorem save {rd : Ready} (h : x.Inv) (hok : x.save = .ok (rd, x')) : x'.Inv := by
  rcases bind_eq_ok.mp hok with ⟨⟨batch, taken⟩, hready, hpure⟩
  cases hpure
  rcases Node.ready_spec hready with ⟨rfl, _⟩
  refine ⟨h.snap, fun rec hrec => ?_, h.plain⟩
  rcases bind_eq_ok.mp hrec with ⟨old, hold, hsave⟩
  rw [saveReady_snapIndex hsave]
  exact h.file old hold

theorem atCrash {saves : Bool} (h : x.Inv) (hok : x.atCrash saves = .ok x') : x'.Inv := by
  cases saves with
  | false =>
      cases hok
      exact h
  | true =>
      rcases bind_eq_ok.mp hok with ⟨⟨rd, y⟩, hsave, hpure⟩
      cases hpure
      exact h.save hsave

theorem drain (h : x.Inv) (hok : x.drain = .ok x') : x'.Inv := by
  rcases bind_eq_ok.mp hok with ⟨⟨rd, y⟩, hsave, hrest⟩
  rcases bind_eq_ok.mp hrest with ⟨n, hn, hpure⟩
  cases hpure
  have hy := h.save hsave
  refine ⟨?_, hy.file, hy.plain⟩
  exact (Node.advance_log hn).snapIndex.trans hy.snap

theorem compactTo {index : Nat} (h : x.Inv)
    (hkeeps : forall e, e ∈ x.node.log.entries.take (index - x.node.log.snapIndex) ->
      e.type ≠ .confChange)
    (hok : x.compactTo index = .ok x') : x'.Inv := by
  rcases bind_eq_ok.mp hok with ⟨n, hn, hpure⟩
  cases hpure
  rcases bind_eq_ok.mp hn with ⟨log, hlog, hpure⟩
  cases hpure
  rcases RaftLog.compactTo_entries hlog with rfl | ⟨hlt, happlied, _, hsnap, _, _⟩
  · have hnone : x.node.log.entries.take (x.node.log.snapIndex - x.node.log.snapIndex) = [] := by
      rw [Nat.sub_self, List.take_zero]
    simp only [hnone, List.append_nil]
    exact h
  · have hlength : (x.node.log.entries.take (index - x.node.log.snapIndex)).length =
        index - x.node.log.snapIndex := by
      apply List.length_take_of_le
      have hlast := x.node.log.lastIndex_eq
      have hcommitted := x.node.log.committed_le_lastIndex
      have happ := x.node.log.applied_le
      lia
    have hnew : (x.dropped ++
        x.node.log.entries.take (index - x.node.log.snapIndex)).length = index := by
      rw [List.length_append, hlength, ← h.snap]
      lia
    simp only [hsnap]
    refine ⟨hsnap.trans hnew.symm, fun rec hrec => ?_, fun e he => ?_⟩
    · rw [hnew]
      have hle := h.file rec hrec
      rw [← h.snap] at hle
      lia
    · rcases List.mem_append.mp he with he | he
      · exact h.plain e he
      · exact hkeeps e he

theorem rewrite (h : x.Inv) (hok : x.rewrite = .ok x') : x'.Inv := by
  rcases bind_eq_ok.mp hok with ⟨ents, _, hpure⟩
  cases hpure
  refine ⟨h.snap, fun rec hrec => ?_, h.plain⟩
  cases hrec
  exact Nat.le_of_eq h.snap

theorem restart {applied : Nat} (h : x.Inv) (hok : x.restart cfg applied = .ok x') : x'.Inv := by
  rcases bind_eq_ok.mp hok with ⟨rec, hrec, hrest⟩
  rcases bind_eq_ok.mp hrest with ⟨n, hn, hpure⟩
  cases hpure
  have hfile := mapError_eq_ok.mp hrec
  have hle := h.file rec hfile
  have hlength : (x.dropped.take rec.snapIndex).length = rec.snapIndex :=
    List.length_take_of_le hle
  refine ⟨?_, fun rec' hrec' => ?_, fun e he => h.plain e (List.mem_of_mem_take he)⟩
  · rw [hlength]
    exact (Node.restoreNode_members (mapError_eq_ok.mp hn)).left
  · rw [hlength]
    change x.file = .ok rec' at hrec'
    rw [hfile] at hrec'
    cases hrec'
    exact Nat.le_refl _

theorem initial (h : x.Initial cfg) : x.Inv := by
  rcases h with ⟨hnode, hfile, hdropped⟩
  refine ⟨?_, fun rec hrec => ?_, fun e he => ?_⟩
  · rw [hdropped, show x.node.log = newLog from
      congrArg Core.log (Node.core_newNodeConfig hnode)]
    rfl
  · rw [hfile] at hrec
    cases hrec
    exact Nat.zero_le _
  · rw [hdropped] at he
    cases he

theorem exec (h : x.Inv) (ha : x.KeepsChanges a) (hok : x.exec cfg a = .ok x') : x'.Inv := by
  cases a with
  | feed ev =>
      rcases bind_eq_ok.mp hok with ⟨n, hn, hpure⟩
      cases hpure
      have hfollows := Replica.follows_feed (mapError_eq_ok.mp hn)
      exact ⟨hfollows.base.snapIndex.trans h.snap, h.file, h.plain⟩
  | drain => exact h.drain (mapError_eq_ok.mp hok)
  | compactTo index => exact h.compactTo ha (mapError_eq_ok.mp hok)
  | rewrite => exact h.rewrite (mapError_eq_ok.mp hok)
  | crash applied saves =>
      rcases bind_eq_ok.mp hok with ⟨y, hy, hrest⟩
      exact (h.atCrash (mapError_eq_ok.mp hy)).restart hrest

theorem restored {applied : Nat} (h : x.Inv)
    (hkeeps : forall rec, x.file = .ok rec ->
      forall e, e ∈ rec.entries.drop (rec.hardState.commit - rec.snapIndex) ->
        e.type ≠ .confChange)
    (hok : x.restart cfg applied = .ok x') : x'.Restored cfg := by
  rcases bind_eq_ok.mp hok with ⟨rec, hrec, hrest⟩
  rcases bind_eq_ok.mp hrest with ⟨n, hn, hpure⟩
  cases hpure
  have hfile := mapError_eq_ok.mp hrec
  rcases Node.restoreNode_members (mapError_eq_ok.mp hn) with
    ⟨hsnap, hents, hcommit, hdistinct, hmembers⟩
  have hlength : (x.dropped.take rec.snapIndex).length = rec.snapIndex :=
    List.length_take_of_le (h.file rec hfile)
  have hplain : forall e, e ∈ x.dropped.take rec.snapIndex -> e.type ≠ .confChange :=
    fun e he => h.plain e (List.mem_of_mem_take he)
  have htail : max rec.snapIndex rec.hardState.commit - rec.snapIndex =
      rec.hardState.commit - rec.snapIndex := by lia
  have hagreed : n.members =
      ((x.dropped.take rec.snapIndex ++ n.log.entries).take n.log.committed).foldl
        Members.applyEntry (cfg.peers.toFinset, ∅) := by
    rw [hents, hcommit, List.take_append, hlength, List.foldl_append, htail,
      List.take_of_length_le (by rw [hlength]; exact Nat.le_max_left _ _),
      Members.foldl_applyEntry_plain _ hplain, hmembers]
    conv_lhs => rw [← List.take_append_drop (rec.hardState.commit - rec.snapIndex) rec.entries]
    rw [List.foldl_append, Members.foldl_applyEntry_plain _ (hkeeps rec hfile)]
  refine ⟨hagreed, ?_⟩
  rw [Node.quorum_of_distinct hdistinct, hagreed]
  rfl

end Inv

def new (cfg : Config) : Except CrashError Member := do
  let n <- (Node.newNodeConfig cfg).mapError .panic
  pure { node := n }

theorem initial_new (h : new cfg = .ok x) : x.Initial cfg := by
  rcases bind_eq_ok.mp h with ⟨n, hn, hpure⟩
  cases hpure
  exact ⟨mapError_eq_ok.mp hn, rfl, rfl⟩

/-- A life up to its first crash: the member at the end, and restarted. -/
def lifetime (cfg : Config) (guard : Member -> Action -> Prop)
    [forall x a, Decidable (guard x a)] (as : List Action) (applied : Nat) :
    Except CrashError (Member × Member) := do
  let start <- new cfg
  let x <- runWhile (Member.exec cfg) guard as start
  let x' <- x.exec cfg (.crash applied false)
  pure (x, x')

theorem exists_of_lifetime {guard : Member -> Action -> Prop}
    [forall x a, Decidable (guard x a)] {as : List Action} {applied : Nat}
    (h : lifetime cfg guard as applied = .ok (x, x')) :
    exists start, start.Initial cfg ∧ Reach (Member.exec cfg) guard start x ∧
      x.exec cfg (.crash applied false) = .ok x' := by
  rcases bind_eq_ok.mp h with ⟨start, hstart, hrest⟩
  rcases bind_eq_ok.mp hrest with ⟨y, hy, hrest⟩
  rcases bind_eq_ok.mp hrest with ⟨y', hy', hpure⟩
  cases hpure
  exact ⟨start, initial_new hstart, Reach.of_runWhile hy, hy'⟩

def alone : Config :=
  { id := 1, peers := [1] }

/-- The only voter elects itself and adds node 2; the change is committed, applied
and saved. -/
def addSecond : List Action :=
  [.feed .campaign, .drain, .feed (.proposeConfChange { type := .addNode, node := 2 }), .drain,
    .drain]

def first : Config :=
  { id := 1, peers := [1, 2, 3] }

/-- Node 1 is elected and saves the removal of node 3, which nobody acknowledges. -/
def removeThird : List Action :=
  [.feed .campaign,
    .feed (.step { type := .preVoteResp, fromId := 2, toId := 1, term := 1 }),
    .feed (.step { type := .voteResp, fromId := 2, toId := 1, term := 1 }), .drain,
    .feed (.proposeConfChange { type := .removeNode, node := 3 }), .drain]

end Member

end Raft
end Basalt
