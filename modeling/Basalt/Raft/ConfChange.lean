import Mathlib.Data.Finset.SymmDiff
import Basalt.Raft.PersistedPrefix
import Basalt.Raft.StateMachineSafety

/-!
# Membership changes

A leader appends a membership change as an entry of its log, and a node adopts
the change when it applies the entry.  One change is to be in flight at a time,
so that the voter sets in use differ by one server at most.

The mark of a change in flight, `pendingConfIndex`, is set by the leader that
proposes the change.  A later leader that inherits the entry has no mark.
-/

namespace Basalt
namespace Raft

open Lib Relation

/-- A cluster with the servers that run: servers join and leave as members are added
and removed. -/
structure Roster extends Cluster where
  running : Finset Nat

inductive ConfAction where
  | act (a : Action)
  | proposeConfChange (id : Nat) (cc : ConfChange)
  | start (cfg : Config) (rec : Recovered) (applied : Nat)
  | stop (id : Nat)

namespace Roster

def exec (r : Roster) : ConfAction -> Except Panic Roster
  | .act a => do
      let cl <- r.toCluster.exec a
      pure { r with toCluster := cl }
  | .proposeConfChange id cc => do
      let x <- (r.nodes id).proposeConfChange cc
      pure { r with toCluster := r.setNode id x.2 }
  | .start cfg rec applied => do
      let n <- Node.restoreNode cfg rec applied
      pure { toCluster := r.setNode cfg.id n, running := insert cfg.id r.running }
  | .stop id => pure { r with running := r.running.erase id }

/-- A server joins with no entries, at the beginning of the log or at a snapshot. -/
def Allowed (r : Roster) : ConfAction -> Prop
  | .act a => r.toCluster.Allowed r.running a
  | .proposeConfChange id cc => id ∈ r.running ∧ cc.node < rangeLE 8
  | .start cfg rec _ => cfg.id ∉ r.running ∧ rec.entries = []
  | .stop id => id ∈ r.running

instance (r : Roster) : (a : ConfAction) -> Decidable (r.Allowed a)
  | .act a => inferInstanceAs (Decidable (r.toCluster.Allowed r.running a))
  | .proposeConfChange id cc =>
      inferInstanceAs (Decidable (id ∈ r.running ∧ cc.node < rangeLE 8))
  | .start cfg rec _ => inferInstanceAs (Decidable (cfg.id ∉ r.running ∧ rec.entries = []))
  | .stop id => inferInstanceAs (Decidable (id ∈ r.running))

end Roster

def ClusterConfig.roster (cfg : ClusterConfig) (cl : Cluster) : Roster where
  toCluster := cl
  running := cfg.voters

/-!
## One change at a time
-/

abbrev Members := Finset Nat × Finset Nat

def Node.members (n : Node) : Members :=
  (n.voters.toFinset, n.learners.toFinset)

def Node.inFlight (n : Node) : List Entry :=
  n.log.entries.filter fun e => e.type = .confChange ∧ n.log.applied < e.index

/-- A leader has one change in flight at most, and the voters of any two servers
differ by one server at most. -/
def OneChange (r : Roster) : Prop :=
  (forall i, i ∈ r.running -> (r.nodes i).role = .leader ->
    (r.nodes i).inFlight.length ≤ 1) ∧
  forall i, i ∈ r.running -> forall j, j ∈ r.running ->
    (symmDiff (r.nodes i).members.1 (r.nodes j).members.1).card ≤ 1

instance (r : Roster) : Decidable (OneChange r) :=
  inferInstanceAs (Decidable (_ ∧ _))

/-!
## Settled changes
-/

def AppliedByAll (ids : Finset Nat) (cl : Cluster) (e : Entry) : Prop :=
  forall j, j ∈ ids -> e.index ≤ (cl.nodes j).log.applied

instance (ids : Finset Nat) (cl : Cluster) (e : Entry) : Decidable (AppliedByAll ids cl e) :=
  inferInstanceAs (Decidable (forall j, j ∈ ids -> _))

def NoneInFlight (ids : Finset Nat) (cl : Cluster) (es : List Entry) : Prop :=
  forall e, e ∈ es -> e.type = .confChange -> AppliedByAll ids cl e

instance (ids : Finset Nat) (cl : Cluster) (es : List Entry) :
    Decidable (NoneInFlight ids cl es) :=
  inferInstanceAs (Decidable (forall e, e ∈ es -> _))

/-- No change is in flight: every change in a log or in an append, queued or
sent, is applied by every node, and the nodes have the same voters apart from `s`. -/
structure SettledBut (s : Nat) (ids : Finset Nat) (cl : Cluster) : Prop where
  logs : forall i, i ∈ ids -> NoneInFlight ids cl (cl.nodes i).log.entries
  queued : forall i, i ∈ ids -> forall m, m ∈ (cl.nodes i).msgs -> m.type = .app ->
    NoneInFlight ids cl m.entries
  sent : forall m, m ∈ cl.network -> m.type = .app -> NoneInFlight ids cl m.entries
  voters : forall i, i ∈ ids -> forall j, j ∈ ids ->
    (cl.nodes i).members.1.erase s = (cl.nodes j).members.1.erase s

instance (s : Nat) (ids : Finset Nat) (cl : Cluster) : Decidable (SettledBut s ids cl) :=
  decidable_of_iff
    ((forall i, i ∈ ids -> NoneInFlight ids cl (cl.nodes i).log.entries) ∧
      (forall i, i ∈ ids -> forall m, m ∈ (cl.nodes i).msgs -> m.type = .app ->
        NoneInFlight ids cl m.entries) ∧
      (forall m, m ∈ cl.network -> m.type = .app -> NoneInFlight ids cl m.entries) ∧
      forall i, i ∈ ids -> forall j, j ∈ ids ->
        (cl.nodes i).members.1.erase s = (cl.nodes j).members.1.erase s)
    ⟨fun h => ⟨h.left, h.right.left, h.right.right.left, h.right.right.right⟩,
      fun h => ⟨h.logs, h.queued, h.sent, h.voters⟩⟩

def Node.AcceptsConfChange (n : Node) : Prop :=
  n.role = .leader ∧ n.pendingConfIndex ≤ n.log.applied

instance (n : Node) : Decidable n.AcceptsConfChange :=
  inferInstanceAs (Decidable (_ ∧ _))

/-- A change is accepted, and a server starts, only when no change is in flight. -/
def OneByOne (r : Roster) : ConfAction -> Prop
  | .act _ | .stop _ => True
  | .proposeConfChange id cc =>
      (r.nodes id).AcceptsConfChange -> SettledBut cc.node r.running r.toCluster
  | .start cfg rec applied =>
      forall r', r.exec (.start cfg rec applied) = .ok r' ->
        SettledBut cfg.id r'.running r'.toCluster

open scoped Evaluate in
instance (r : Roster) : (a : ConfAction) -> Decidable (OneByOne r a)
  | .act _ | .stop _ => .isTrue True.intro
  | .proposeConfChange id cc =>
      inferInstanceAs (Decidable
        ((r.nodes id).AcceptsConfChange -> SettledBut cc.node r.running r.toCluster))
  | .start cfg rec applied =>
      inferInstanceAs (Decidable (forall r', r.exec (.start cfg rec applied) = .ok r' ->
        SettledBut cfg.id r'.running r'.toCluster))

/-!
## Logs and messages of a node
-/

section Clean

variable {inp : Input} {c c' : Core} {Q : Entry -> Prop}

def Message.Clean (Q : Entry -> Prop) (m : Message) : Prop :=
  m.type = .app ->
    NumberedFrom (m.logIndex + 1) m.entries ∧
      forall e, e ∈ m.entries -> e.type = .confChange -> Q e

structure Core.Clean (Q : Entry -> Prop) (c : Core) : Prop where
  numbered : NumberedFrom (c.log.snapIndex + 1) c.log.entries
  log : forall e, e ∈ c.log.entries -> e.type = .confChange -> Q e
  msgs : forall m, m ∈ c.msgs -> m.Clean Q

theorem stamp_logIndex (c : Core) (m : Message) : (c.stamp m).logIndex = m.logIndex := by
  rw [Core.stamp]
  split
  · rfl
  · rfl

theorem stamp_entries (c : Core) (m : Message) : (c.stamp m).entries = m.entries := by
  rw [Core.stamp]
  split
  · rfl
  · rfl

theorem Message.Clean.mono {Q' : Entry -> Prop} {m : Message} (h : m.Clean Q)
    (hQ : forall e, Q e -> Q' e) : m.Clean Q' := by
  intro htype
  exact ⟨(h htype).left, fun e he hconf => hQ e ((h htype).right e he hconf)⟩

theorem Core.Clean.mono {Q' : Entry -> Prop} (h : c.Clean Q)
    (hQ : forall e, e.type = .confChange -> Q e -> Q' e) : c.Clean Q' where
  numbered := h.numbered
  log := fun e he hconf => hQ e hconf (h.log e he hconf)
  msgs := fun m hm htype => ⟨(h.msgs m hm htype).left, fun e he hconf =>
    hQ e hconf ((h.msgs m hm htype).right e he hconf)⟩

theorem Message.clean_of_type {m : Message} (h : m.type ≠ .app) : m.Clean Q :=
  fun htype => absurd htype h

theorem Core.Clean.say (h : c.Clean Q) {m : Message} (hm : (c.stamp m).Clean Q) :
    (c.say m).Clean Q := by
  constructor
  · exact h.numbered
  · exact h.log
  · intro x hx
    rcases List.mem_append.mp hx with hx | hx
    · exact h.msgs x hx
    · rw [List.mem_singleton.mp hx]
      exact hm

theorem Core.Clean.say_other (h : c.Clean Q) {m : Message} (hm : m.type ≠ .app) :
    (c.say m).Clean Q :=
  h.say (Message.clean_of_type (by rw [Node.stamp_type]; exact hm))

theorem Core.Clean.say_all (h : c.Clean Q) {ms : List Message}
    (hms : forall m, m ∈ ms -> m.type ≠ .app) :
    Core.Clean Q { c with msgs := c.msgs ++ ms } := by
  constructor
  · exact h.numbered
  · exact h.log
  · intro x hx
    rcases List.mem_append.mp hx with hx | hx
    · exact h.msgs x hx
    · exact Message.clean_of_type (hms x hx)

theorem RaftLog.numbered_append {l l' : RaftLog} {es : List Entry} {first : Nat}
    (hnum : NumberedFrom (l.snapIndex + 1) l.entries) (hes : NumberedFrom first es)
    (hok : l.append es = .ok l') : NumberedFrom (l'.snapIndex + 1) l'.entries := by
  have hg : Grows 0 l l' := Grows.append hnum (Nat.zero_le _) hes hok
  rw [hg.base.snapIndex]
  exact hg.numbered

theorem RaftLog.numbered_appendNew {l l' : RaftLog} {es : List Entry} {first : Nat}
    (hnum : NumberedFrom (l.snapIndex + 1) l.entries) (hes : NumberedFrom first es)
    (hok : l.appendNew es = .ok l') : NumberedFrom (l'.snapIndex + 1) l'.entries := by
  induction es generalizing first with
  | nil =>
      cases hok
      exact hnum
  | cons e es ih =>
      rw [RaftLog.appendNew] at hok
      split at hok
      · exact numbered_append hnum hes hok
      · split at hok
        · rcases bind_eq_ok.mp hok with ⟨mid, hmid, hrest⟩
          refine numbered_append ?_ hes hrest
          rw [(truncateFrom_entries hmid).left, (sameBase_truncateFrom hmid).snapIndex]
          exact hnum.take _
        · exact ih hes.tail hok

theorem RaftLog.numbered_slice {l : RaftLog} {lo hi : Nat} {ents : List Entry}
    (hnum : NumberedFrom (l.snapIndex + 1) l.entries)
    (hok : l.slice lo hi = .ok ents) : NumberedFrom lo ents := by
  rw [slice] at hok
  split at hok
  · cases hok
  · next hin =>
      cases hok
      have hoff := l.offset_eq
      have hdrop := (hnum.drop (lo - l.offset)).take (hi - lo)
      have hfirst : l.snapIndex + 1 + (lo - l.offset) = lo := by lia
      rw [hfirst] at hdrop
      exact hdrop

/-- Every transition keeps a node clean. -/
theorem Core.Clean.move (h : c.Clean Q)
    (hin : forall m, inp.message = some m -> m.Clean Q) (hmove : Move inp c c') :
    c'.Clean Q := by
  cases hmove with
  | adopt _ => exact ⟨h.numbered, h.log, h.msgs⟩
  | campaign _ hms =>
      constructor
      · exact h.numbered
      · exact h.log
      · apply (h.say_all _).msgs
        intro m hm htype
        rcases hms m hm with ⟨target, lastTerm, _, _, rfl⟩
        cases htype
  | preCampaign _ => exact ⟨h.numbered, h.log, h.msgs⟩
  | notice hms =>
      apply h.say_all
      intro m hm htype
      rcases (hms m hm).left with ht | ht | ht | ⟨ht, _⟩
      · rw [ht] at htype
        cases htype
      · rw [ht] at htype
        cases htype
      · rw [ht] at htype
        cases htype
      · rw [ht] at htype
        cases htype
  | grant _ _ _ _ _ =>
      apply Core.Clean.say_other
      · exact ⟨h.numbered, h.log, h.msgs⟩
      · intro htype
        cases htype
  | tally _ _ _ _ _ _ | lead _ _ => exact ⟨h.numbered, h.log, h.msgs⟩
  | append _ hes hlog =>
      refine ⟨RaftLog.numbered_append h.numbered (fun i e hi => (hes i e hi).left) hlog,
        ?_, h.msgs⟩
      intro e he hconf
      rw [(RaftLog.append_entries hlog).left] at he
      rcases List.mem_append.mp he with he | he
      · exact h.log e he hconf
      · rcases List.getElem?_of_mem he with ⟨i, hi⟩
        rw [(hes i e hi).right.right.left] at hconf
        cases hconf
  | ownMatch _ => exact ⟨h.numbered, h.log, h.msgs⟩
  | commit _ _ _ hlog =>
      have hents := RaftLog.commitTo_entries hlog
      refine ⟨?_, ?_, h.msgs⟩
      · rw [hents, (RaftLog.sameBase_commitTo hlog).snapIndex]
        exact h.numbered
      · intro e he
        rw [hents] at he
        exact h.log e he
  | ack _ _ _ _ _ | setNext _ => exact ⟨h.numbered, h.log, h.msgs⟩
  | sendApp _ _ hnext _ hslice =>
      apply h.say
      intro _
      have hnum := RaftLog.numbered_slice h.numbered hslice
      rw [stamp_logIndex, stamp_entries]
      constructor
      · rw [Core.appendRequest]
        dsimp only
        rw [Nat.sub_add_cancel hnext]
        exact hnum
      · intro e he
        exact h.log e (RaftLog.mem_of_slice hslice he)
  | timeoutNow _ _ => exact h.say_other fun htype => by cases htype
  | follow _ _ _ => exact ⟨h.numbered, h.log, h.msgs⟩
  | accept hm htype _ _ happ =>
      rcases RaftLog.maybeAppend_some happ with ⟨_, _, mid, hmid, hlast⟩
      rcases hin _ hm htype with ⟨hnum, hconf⟩
      have hents := RaftLog.commitTo_entries hlast
      apply Core.Clean.say_other _ fun htype => by cases htype
      refine ⟨?_, ?_, h.msgs⟩
      · rw [hents, (RaftLog.sameBase_commitTo hlast).snapIndex]
        exact RaftLog.numbered_appendNew h.numbered hnum hmid
      · intro e he htype'
        change e ∈ _ at he
        rw [hents] at he
        rcases RaftLog.mem_appendNew hmid he with he | he
        · exact h.log e he htype'
        · exact hconf e he htype'
  | refuse _ _ _ _ => exact h.say_other fun htype => by cases htype
  | openRound _ _ _ | rearm _ _ | countAck _ _ _ _ _ _ _ | closeRound _ _ =>
      exact ⟨h.numbered, h.log, h.msgs⟩

theorem Core.Clean.moves (h : c.Clean Q)
    (hin : forall m, inp.message = some m -> m.Clean Q) (hmoves : Moves inp c c') :
    c'.Clean Q := by
  induction hmoves with
  | refl => exact h
  | tail _ hlast ih => exact ih.move hin hlast

end Clean

/-!
## Members of a node
-/

def Members.change (x : Members) (cc : ConfChange) : Members :=
  match cc.type with
  | .addNode => (insert cc.node x.1, x.2.erase cc.node)
  | .addLearner => if cc.node ∈ x.1 then x else (x.1, insert cc.node x.2)
  | .removeNode => (x.1.erase cc.node, x.2.erase cc.node)
  | .other _ => x

def Members.applyEntry (x : Members) (e : Entry) : Members :=
  if e.type = .confChange then
    match decodeConfChange e.data with
    | some cc => x.change cc
    | none => x
  else x

theorem Members.erase_change (x : Members) (cc : ConfChange) :
    (x.change cc).1.erase cc.node = x.1.erase cc.node := by
  rw [Members.change]
  split
  · exact Finset.erase_insert_eq_erase x.1 cc.node
  · split
    · rfl
    · rfl
  · exact Finset.erase_idem
  · rfl

/-- Applied by a node, the entry leaves the voters alone, apart from `s`. -/
def Entry.About (s : Nat) (e : Entry) : Prop :=
  forall x : Members, (x.applyEntry e).1.erase s = x.1.erase s

theorem Entry.about_of_type {e : Entry} (h : e.type ≠ .confChange) (s : Nat) : e.About s := by
  intro x
  rw [Members.applyEntry, if_neg h]

theorem Entry.about_encode {e : Entry} {cc : ConfChange} (hnode : cc.node < rangeLE 8)
    (hdata : e.data = cc.encode) : e.About cc.node := by
  intro x
  rw [Members.applyEntry, hdata, decodeConfChange_encode hnode]
  split
  · exact x.erase_change cc
  · rfl

namespace Node

variable {n n' : Node}

def Distinct (n : Node) : Prop :=
  n.voters.Nodup ∧ n.learners.Nodup

theorem members_initProgress (n : Node) (id : Nat) :
    (n.initProgress id).members = n.members ∧
      (n.initProgress id).Distinct = n.Distinct := by
  rw [initProgress]
  split
  · exact ⟨rfl, rfl⟩
  · split
    · exact ⟨rfl, rfl⟩
    · exact ⟨rfl, rfl⟩

theorem toFinset_insert (l : List Nat) (a : Nat) :
    (if a ∈ l then l else l ++ [a]).toFinset = insert a l.toFinset := by
  split
  · next h => rw [Finset.insert_eq_of_mem (List.mem_toFinset.mpr h)]
  · rw [List.toFinset_append, Finset.union_comm]
    rfl

theorem nodup_insert {l : List Nat} (h : l.Nodup) (a : Nat) :
    (if a ∈ l then l else l ++ [a]).Nodup := by
  split
  · exact h
  · next ha => exact h.append (List.nodup_singleton a) (by simpa using ha)

theorem toFinset_erase {l : List Nat} (h : l.Nodup) (a : Nat) :
    (l.erase a).toFinset = l.toFinset.erase a := by
  ext b
  rw [List.mem_toFinset, h.mem_erase_iff, Finset.mem_erase, List.mem_toFinset]

theorem members_applyConfChange (h : n.Distinct) (cc : ConfChange) :
    (n.applyConfChange cc).members = n.members.change cc ∧
      (n.applyConfChange cc).Distinct := by
  rcases cc with ⟨type, node⟩
  cases type with
  | addNode =>
      rcases members_initProgress { n with
        learners := n.learners.erase node
        voters := if node ∈ n.voters then n.voters else n.voters ++ [node] }
        node with ⟨hmem, hdist⟩
      rw [applyConfChange]
      dsimp only
      rw [hmem, hdist]
      refine ⟨?_, nodup_insert h.left _, h.right.erase _⟩
      rw [members, toFinset_insert, toFinset_erase h.right]
      rfl
  | removeNode =>
      rw [applyConfChange]
      refine ⟨?_, h.left.erase _, h.right.erase _⟩
      rw [members, toFinset_erase h.left, toFinset_erase h.right]
      rfl
  | addLearner =>
      rw [applyConfChange, Members.change]
      dsimp only
      by_cases hnode : node ∈ n.voters
      · have hin : node ∈ n.members.1 := List.mem_toFinset.mpr hnode
        rw [if_pos hnode, if_pos hin]
        exact ⟨rfl, h⟩
      · rcases members_initProgress { n with
          learners := if node ∈ n.learners then n.learners else n.learners ++ [node] }
          node with ⟨hmem, hdist⟩
        have hin : node ∉ n.members.1 := fun hin => hnode (List.mem_toFinset.mp hin)
        rw [if_neg hnode, if_neg hin, hmem, hdist]
        refine ⟨?_, h.left, nodup_insert h.right _⟩
        rw [members, toFinset_insert]
        rfl
  | other tag => exact ⟨rfl, h⟩

theorem members_applyConfEntry (h : n.Distinct) (e : Entry) :
    (n.applyConfEntry e).members = n.members.applyEntry e ∧
      (n.applyConfEntry e).Distinct := by
  rw [applyConfEntry, Members.applyEntry]
  split
  · cases decodeConfChange e.data with
    | some cc => exact members_applyConfChange h cc
    | none => exact ⟨rfl, h⟩
  · exact ⟨rfl, h⟩

theorem voters_foldl {es : List Entry} {s : Nat} (hes : forall e, e ∈ es -> e.About s)
    (h : n.Distinct) :
    (es.foldl applyConfEntry n).Distinct ∧
      (es.foldl applyConfEntry n).members.1.erase s = n.members.1.erase s := by
  induction es generalizing n with
  | nil => exact ⟨h, rfl⟩
  | cons e es ih =>
      rcases members_applyConfEntry h e with ⟨hmem, hdist⟩
      rcases ih (fun d hd => hes d (List.mem_cons_of_mem e hd)) hdist with ⟨hdist', hfold⟩
      refine ⟨hdist', ?_⟩
      rw [List.foldl_cons, hfold, hmem]
      exact hes e List.mem_cons_self n.members

end Node

theorem Move.members {inp : Input} {c c' : Core} (h : Move inp c c') :
    c'.voters = c.voters ∧ c'.learners = c.learners := by
  cases h with
  | _ => exact ⟨rfl, rfl⟩

theorem Moves.members {inp : Input} {c c' : Core} (h : Moves inp c c') :
    c'.voters = c.voters ∧ c'.learners = c.learners := by
  induction h with
  | refl => exact ⟨rfl, rfl⟩
  | tail _ hlast ih =>
      exact ⟨hlast.members.left.trans ih.left, hlast.members.right.trans ih.right⟩

/-!
## The invariant
-/

section Invariant

variable {ids : Finset Nat} {cl cl' : Cluster} {x : Entry} {s i : Nat} {V : Finset Nat}

def Settling (ids : Finset Nat) (cl : Cluster) (x e : Entry) : Prop :=
  e = x ∨ AppliedByAll ids cl e

/-- The facts about one node: what it holds is known, and so are its voters, apart
from the server that the change in flight is about. -/
structure NodeOK (Q : Entry -> Prop) (s : Nat) (V : Finset Nat) (n : Node) : Prop where
  clean : n.core.Clean Q
  distinct : n.Distinct
  voters : n.members.1.erase s = V

structure ConfInv (ids : Finset Nat) (cl : Cluster) (x : Entry) (s : Nat) (V : Finset Nat) :
    Prop where
  about : x.About s
  nodes : forall i, i ∈ ids -> NodeOK (Settling ids cl x) s V (cl.nodes i)
  network : forall m, m ∈ cl.network -> m.Clean (Settling ids cl x)

theorem NodeOK.mono {Q Q' : Entry -> Prop} {n : Node} (h : NodeOK Q s V n)
    (hQ : forall e, Q e -> Q' e) : NodeOK Q' s V n :=
  { h with clean := h.clean.mono fun e _ he => hQ e he }

theorem NodeOK.of_same {Q : Entry -> Prop} {n n' : Node} (h : NodeOK Q s V n)
    (hlog : n'.log = n.log) (hmsgs : n'.msgs = n.msgs) (hvoters : n'.voters = n.voters)
    (hlearners : n'.learners = n.learners) : NodeOK Q s V n' := by
  have hcore : n'.core.log = n.core.log ∧ n'.core.msgs = n.core.msgs := ⟨hlog, hmsgs⟩
  refine ⟨⟨?_, ?_, ?_⟩, ?_, ?_⟩
  · rw [hcore.left]
    exact h.clean.numbered
  · rw [hcore.left]
    exact h.clean.log
  · rw [hcore.right]
    exact h.clean.msgs
  · rw [Node.Distinct, hvoters, hlearners]
    exact h.distinct
  · rw [Node.members, hvoters]
    exact h.voters

/-- A leader appends a change of its own. -/
theorem NodeOK.appendChange {Q : Entry -> Prop} {n : Node} {e : Entry} {log : RaftLog}
    (h : NodeOK Q s V n) (he : Q e) (hindex : e.index = n.log.lastIndex + 1)
    (hlog : n.log.append [e] = .ok log) (pending : Nat) :
    NodeOK Q s V { n with log := log, pendingConfIndex := pending } := by
  have hone : NumberedFrom (n.log.lastIndex + 1) [e] := by
    intro k d hk
    cases k with
    | zero =>
        cases hk
        exact hindex
    | succ k => cases hk
  refine ⟨⟨RaftLog.numbered_append h.clean.numbered hone hlog, ?_, h.clean.msgs⟩, h.distinct,
    h.voters⟩
  intro d hd hconf
  change d ∈ log.entries at hd
  rw [(RaftLog.append_entries hlog).left] at hd
  rcases List.mem_append.mp hd with hd | hd
  · exact h.clean.log d hd hconf
  · cases List.mem_singleton.mp hd
    exact he

theorem NodeOK.moves {Q : Entry -> Prop} {n n' : Node} {inp : Input}
    (h : NodeOK Q s V n) (hin : forall m, inp.message = some m -> m.Clean Q)
    (hmoves : Moves inp n.core n'.core) : NodeOK Q s V n' := by
  have hmem := hmoves.members
  have hvoters : n'.voters = n.voters := hmem.left
  have hlearners : n'.learners = n.learners := hmem.right
  have hmembers : n'.members = n.members := by
    rw [Node.members, hvoters, hlearners]
    rfl
  constructor
  · exact h.clean.moves hin hmoves
  · rw [Node.Distinct, hvoters, hlearners]
    exact h.distinct
  · rw [hmembers]
    exact h.voters

theorem Settling.setNode {n : Node} (happlied : (cl.nodes i).log.applied ≤ n.log.applied)
    {e : Entry} (h : Settling ids cl x e) : Settling ids (cl.setNode i n) x e := by
  rcases h with rfl | hall
  · exact Or.inl rfl
  · refine Or.inr fun j hj => ?_
    by_cases hji : j = i
    · subst hji
      change e.index ≤ (Function.update cl.nodes j n j).log.applied
      rw [Function.update_self]
      exact Nat.le_trans (hall j hj) happlied
    · change e.index ≤ (Function.update cl.nodes i n j).log.applied
      rw [Function.update_of_ne hji]
      exact hall j hj

theorem ConfInv.setNode (h : ConfInv ids cl x s V) {n : Node}
    (happlied : (cl.nodes i).log.applied ≤ n.log.applied)
    (hn : NodeOK (Settling ids cl x) s V n) : ConfInv ids (cl.setNode i n) x s V := by
  refine ⟨h.about, ?_, ?_⟩
  · intro j hj
    by_cases hji : j = i
    · subst hji
      change NodeOK _ s V (Function.update cl.nodes j n j)
      rw [Function.update_self]
      exact hn.mono fun e he => he.setNode happlied
    · change NodeOK _ s V (Function.update cl.nodes i n j)
      rw [Function.update_of_ne hji]
      exact (h.nodes j hj).mono fun e he => he.setNode happlied
  · intro m hm
    exact (h.network m hm).mono fun e he => he.setNode happlied

theorem ConfInv.operation (h : ConfInv ids cl x s V) (hi : i ∈ ids) {n : Node} {inp : Input}
    (hin : forall m, inp.message = some m -> m.Clean (Settling ids cl x))
    (hmoves : Moves inp (cl.nodes i).core n.core) :
    ConfInv ids (cl.setNode i n) x s V := by
  have happlied : n.log.applied = (cl.nodes i).log.applied :=
    hmoves.sameBase.left.applied
  exact h.setNode (Nat.le_of_eq happlied.symm) ((h.nodes i hi).moves hin hmoves)

theorem NumberedFrom.nodup {first : Nat} {es : List Entry} (h : NumberedFrom first es) :
    es.Nodup := by
  rw [List.nodup_iff_getElem?_ne_getElem?]
  intro a b hab hb heq
  rw [List.getElem?_eq_getElem hb] at heq
  have ha := h a _ heq
  have hb' := h b _ (List.getElem?_eq_getElem hb)
  lia

theorem Node.numbered_committedEntries {n n' : Node} {rd : Ready}
    (hnum : NumberedFrom (n.log.snapIndex + 1) n.log.entries)
    (h : n.ready = .ok (rd, n')) :
    NumberedFrom (n.log.applied + 1) rd.committedEntries := by
  rcases bind_eq_ok.mp h with ⟨ents, _, h⟩
  rcases bind_eq_ok.mp h with ⟨committed, hcommitted, hpure⟩
  cases hpure
  rw [nextCommitted] at hcommitted
  split at hcommitted
  · exact RaftLog.numbered_slice hnum hcommitted
  · cases hcommitted
    exact NumberedFrom.nil _

theorem NodeOK.advanceApplied {Q : Entry -> Prop} {n n' : Node} {es : List Entry}
    (h : NodeOK Q s V n) (hx : x.About s)
    (hQ : forall e, Q e -> e = x ∨ e.index ≤ n.log.applied)
    (hnum : NumberedFrom (n.log.applied + 1) es)
    (hes : forall e, e ∈ es -> e.type = .confChange -> Q e)
    (hok : n.advanceApplied es = .ok n') :
    NodeOK Q s V n' ∧ n.log.applied ≤ n'.log.applied := by
  rw [Node.advanceApplied] at hok
  split at hok
  · cases hok
    exact ⟨h, Nat.le_refl _⟩
  · next e hlast =>
      rcases bind_eq_ok.mp hok with ⟨log, hlog, hpure⟩
      cases hpure
      rcases Node.sameButMembers_foldl es n with ⟨voters, learners, next, matched, hcore⟩
      have hfoldlog : (es.foldl Node.applyConfEntry n).log = n.log :=
        congrArg Core.log hcore
      have hfoldmsgs : (es.foldl Node.applyConfEntry n).msgs = n.msgs :=
        congrArg Core.msgs hcore
      rw [hfoldlog] at hlog
      rcases RaftLog.appliedTo_entries hlog with ⟨hents, hsnap, happlied⟩
      have habove : forall d, d ∈ es -> n.log.applied < d.index := by
        intro d hd
        rcases List.getElem?_of_mem hd with ⟨k, hk⟩
        have hidx := hnum k d hk
        lia
      -- Every entry of the batch lies above what was applied, so a change in
      -- it is the one in flight.
      have habout : forall d, d ∈ es -> d.About s := by
        intro d hd
        by_cases hconf : d.type = .confChange
        · rcases hQ d (hes d hd hconf) with rfl | hle
          · exact hx
          · exact absurd hle (Nat.not_le_of_lt (habove d hd))
        · exact Entry.about_of_type hconf s
      rcases Node.voters_foldl habout h.distinct with ⟨hdistinct, hvoters⟩
      refine ⟨⟨⟨?_, ?_, ?_⟩, hdistinct, hvoters.trans h.voters⟩, ?_⟩
      · change NumberedFrom (log.snapIndex + 1) log.entries
        rw [hents, hsnap]
        exact h.clean.numbered
      · intro d hd
        change d ∈ log.entries at hd
        rw [hents] at hd
        exact h.clean.log d hd
      · intro m hm
        change m ∈ (es.foldl Node.applyConfEntry n).msgs at hm
        rw [hfoldmsgs] at hm
        exact h.clean.msgs m hm
      · change n.log.applied ≤ log.applied
        rw [happlied]
        exact Nat.le_of_lt (habove e (List.mem_of_getLast? hlast))

theorem NodeOK.advance {Q : Entry -> Prop} {n n' : Node} {rd : Ready}
    (h : NodeOK Q s V n) (hx : x.About s)
    (hQ : forall e, Q e -> e = x ∨ e.index ≤ n.log.applied)
    (hnum : NumberedFrom (n.log.applied + 1) rd.committedEntries)
    (hes : forall e, e ∈ rd.committedEntries -> e.type = .confChange -> Q e)
    (hok : n.advance rd = .ok n') : NodeOK Q s V n' ∧ n.log.applied ≤ n'.log.applied := by
  rcases bind_eq_ok.mp hok with ⟨n1, hn1, hok⟩
  rcases bind_eq_ok.mp hok with ⟨n2, hn2, hpure⟩
  cases hpure
  have hstable : NodeOK Q s V n1 ∧ n1.log.applied = n.log.applied := by
    rw [Node.advanceStable] at hn1
    split at hn1
    · cases hn1
      exact ⟨h.of_same rfl rfl rfl rfl, rfl⟩
    · next e _ =>
        rcases bind_eq_ok.mp hn1 with ⟨r, hr, hpure⟩
        cases hpure
        let saved : Node :=
          { n with prevHard := rd.hardState.getD n.prevHard, stabled := e.index }
        have hsaved : NodeOK Q s V saved := h.of_same rfl rfl rfl rfl
        have heffect : EffectOf {} saved.core (fun r => Node.Keeps saved r.2)
            saved.maybeCommit := Node.maybeCommit_effect
        have hmoves : Moves {} saved.core r.2.core := (heffect.returned hr).left
        exact ⟨hsaved.moves (fun _ hm => by cases hm) hmoves,
          hmoves.sameBase.left.applied⟩
  rcases hstable with ⟨h1, happlied⟩
  rw [← happlied] at hnum hQ
  rcases h1.advanceApplied hx hQ hnum hes hn2 with ⟨h2, hle⟩
  rw [happlied] at hle
  exact ⟨h2.of_same rfl rfl rfl rfl, hle⟩

theorem ConfInv.drain (h : ConfInv ids cl x s V) (hi : i ∈ ids) {r : Ready × Cluster}
    (hok : cl.drain i = .ok r) : ConfInv ids r.2 x s V := by
  rcases bind_eq_ok.mp hok with ⟨⟨rd, n⟩, hready, hok⟩
  rcases bind_eq_ok.mp hok with ⟨n', hadvance, hpure⟩
  cases hpure
  have hnode := h.nodes i hi
  have hnum := Node.numbered_committedEntries hnode.clean.numbered hready
  rcases Node.ready_spec hready with ⟨rfl, hmsgs, _, _, hents⟩
  have hdrained : NodeOK (Settling ids cl x) s V { cl.nodes i with msgs := [] } :=
    ⟨⟨hnode.clean.numbered, hnode.clean.log, fun m hm => by cases hm⟩, hnode.distinct,
      hnode.voters⟩
  have hQ : forall e, Settling ids cl x e -> e = x ∨ e.index ≤ (cl.nodes i).log.applied := by
    rintro e (heq | hall)
    · exact Or.inl heq
    · exact Or.inr (hall i hi)
  have hcommitted : forall e, e ∈ rd.committedEntries -> e.type = .confChange ->
      Settling ids cl x e :=
    fun e he => hnode.clean.log e (hents e (List.mem_append_right _ he))
  rcases hdrained.advance h.about hQ hnum hcommitted hadvance with ⟨hn', hle⟩
  have hset := h.setNode hle hn'
  refine ⟨h.about, hset.nodes, fun m hm => ?_⟩
  rcases List.mem_append.mp hm with hm | hm
  · exact hset.network m hm
  · rw [hmsgs] at hm
    exact (hnode.clean.msgs m hm).mono fun e he => he.setNode hle

theorem ConfInv.compactTo (h : ConfInv ids cl x s V) (hi : i ∈ ids) {index : Nat} {n : Node}
    (hok : (cl.nodes i).compactTo index = .ok n) : ConfInv ids (cl.shrink i n) x s V := by
  have hnode := h.nodes i hi
  rcases bind_eq_ok.mp hok with ⟨log, hlog, hpure⟩
  cases hpure
  rcases RaftLog.compactTo_tail hnode.clean.numbered hlog with
    ⟨hnum, _, happlied, hsub, _⟩
  have hn : NodeOK (Settling ids cl x) s V { cl.nodes i with log := log } :=
    ⟨⟨hnum, fun e he => hnode.clean.log e (hsub e he), hnode.clean.msgs⟩,
      hnode.distinct, hnode.voters⟩
  have hle : (cl.nodes i).log.applied ≤ ({ cl.nodes i with log := log } : Node).log.applied :=
    Nat.le_of_eq happlied.symm
  have hset := h.setNode hle hn
  exact ⟨h.about, hset.nodes, hset.network⟩

structure InOrder (ids : Finset Nat) (cl : Cluster) : Prop where
  nodes : forall i, i ∈ ids -> (cl.nodes i).core.Clean (fun _ => True) ∧ (cl.nodes i).Distinct
  network : forall m, m ∈ cl.network -> m.Clean fun _ => True

theorem ConfInv.inOrder (h : ConfInv ids cl x s V) : InOrder ids cl where
  nodes := fun i hi =>
    ⟨(h.nodes i hi).clean.mono fun _ _ _ => trivial, (h.nodes i hi).distinct⟩
  network := fun m hm => (h.network m hm).mono fun _ _ => trivial

/-- Where nothing is in flight, any change about `s` may be the next one. -/
theorem InOrder.confInv (h : InOrder ids cl) (hi : i ∈ ids) (hsettled : SettledBut s ids cl)
    (hx : x.About s) : ConfInv ids cl x s ((cl.nodes i).members.1.erase s) := by
  refine ⟨hx, ?_, ?_⟩
  · intro j hj
    rcases h.nodes j hj with ⟨hclean, hdistinct⟩
    refine ⟨⟨hclean.numbered, ?_, ?_⟩, hdistinct, hsettled.voters j hj i hi⟩
    · intro e he hconf
      exact Or.inr (hsettled.logs j hj e he hconf)
    · intro m hm htype
      refine ⟨(hclean.msgs m hm htype).left, fun e he hconf => ?_⟩
      exact Or.inr (hsettled.queued j hj m hm htype e he hconf)
  · intro m hm htype
    refine ⟨(h.network m hm htype).left, fun e he hconf => ?_⟩
    exact Or.inr (hsettled.sent m hm htype e he hconf)

theorem ConfInv.proposeConfChange (h : ConfInv ids cl x s V) (hi : i ∈ ids)
    {cc : ConfChange} (hcc : cc.node < rangeLE 8)
    (hone : (cl.nodes i).AcceptsConfChange -> SettledBut cc.node ids cl)
    {r : Option ProposeError × Node} (hok : (cl.nodes i).proposeConfChange cc = .ok r) :
    exists x' s' V', ConfInv ids (cl.setNode i r.2) x' s' V' := by
  rw [Node.proposeConfChange] at hok
  have hnode := h.nodes i hi
  split at hok
  · cases hok
    exact ⟨x, s, V, h.setNode (Nat.le_refl _) hnode⟩
  · next hrole =>
      split at hok
      · cases hok
        exact ⟨x, s, V, h.setNode (Nat.le_refl _) hnode⟩
      · next hpending =>
        have hsettled := hone ⟨not_not.mp hrole, Nat.le_of_not_lt hpending⟩
        rcases bind_eq_ok.mp hok with ⟨log, hlog, hok⟩
        rcases bind_eq_ok.mp hok with ⟨y, hy, hok⟩
        rcases bind_eq_ok.mp hok with ⟨n2, hn2, hpure⟩
        cases hpure
        let change : Entry :=
          { type := .confChange
            index := (cl.nodes i).log.lastIndex + 1
            term := (cl.nodes i).term
            data := cc.encode }
        let next : Node :=
          { cl.nodes i with
            log := log
            pendingConfIndex := (cl.nodes i).log.lastIndex + 1 }
        have h' := h.inOrder.confInv hi hsettled (Entry.about_encode (e := change) hcc rfl)
        have hnext : NodeOK (Settling ids cl change) cc.node
            ((cl.nodes i).members.1.erase cc.node) next :=
          (h'.nodes i hi).appendChange (Or.inl rfl) rfl hlog _
        have hcommit : EffectOf {} next.core (fun r => Node.Keeps next r.2)
            next.maybeCommit := Node.maybeCommit_effect
        rcases hcommit.returned hy with ⟨hmoves, hkeep⟩
        have hleader : y.2.role = .leader :=
          (Node.Keeps.role hkeep).trans (not_not.mp hrole)
        have hbcast : Effect {} y.2.core (Node.Keeps y.2) y.2.bcastAppend :=
          Node.bcastAppend_effect hleader
        have hall : Moves {} next.core n2.core :=
          hmoves.trans (hbcast.returned hn2).left
        have happlied : n2.log.applied = (cl.nodes i).log.applied :=
          hall.sameBase.left.applied.trans (RaftLog.sameBase_append hlog).applied
        exact ⟨change, cc.node, _, h'.setNode (Nat.le_of_eq happlied.symm)
          (hnext.moves (fun _ hm => by cases hm) hall)⟩

theorem ConfInv.exec (h : ConfInv ids cl x s V) {a : Action} (ha : cl.Allowed ids a)
    (hok : cl.exec a = .ok cl') : ConfInv ids cl' x s V := by
  have hnone : forall m, ({} : Input).message = some m ->
      m.Clean (Settling ids cl x) := fun _ hm => by cases hm
  cases a with
  | tick id =>
      rcases bind_eq_ok.mp hok with ⟨n, hn, hpure⟩
      cases hpure
      have heffect : Effect {} (cl.nodes id).core (fun _ => True) (cl.nodes id).tick :=
        Node.tick_effect
      exact h.operation ha hnone (heffect.returned hn).left
  | campaign id =>
      rcases bind_eq_ok.mp hok with ⟨n, hn, hpure⟩
      cases hpure
      have heffect : Effect {} (cl.nodes id).core (fun _ => True)
          (cl.nodes id).campaign := Node.campaign_effect ha.right
      exact h.operation ha.left hnone (heffect.returned hn).left
  | propose id data =>
      rcases bind_eq_ok.mp hok with ⟨r, hr, hpure⟩
      cases hpure
      refine h.operation ha ?_ (Node.step_input_effect.returned hr).left
      intro m hm
      cases hm
      exact Message.clean_of_type fun htype => by cases htype
  | transferLeader id target =>
      rcases bind_eq_ok.mp hok with ⟨r, hr, hpure⟩
      cases hpure
      have heffect : EffectOf {} (cl.nodes id).core (fun _ => True)
          ((cl.nodes id).transferLeader target) := Node.transferLeader_effect target
      exact h.operation ha hnone (heffect.returned hr).left
  | readIndex id read =>
      rcases bind_eq_ok.mp hok with ⟨r, hr, hpure⟩
      cases hpure
      rcases Node.readIndex_effect (n := cl.nodes id) {} read with
        hfalse | ⟨_, _, heffect⟩
      · rw [hfalse] at hr
        cases hr
        exact h.setNode (Nat.le_refl _) (h.nodes id ha)
      · let queued : Node :=
          { cl.nodes id with
            pendingReads := (cl.nodes id).pendingReads ++
              [{ id := read, index := (cl.nodes id).log.committed }] }
        have hqueued : NodeOK (Settling ids cl x) s V queued :=
          (h.nodes id ha).of_same rfl rfl rfl rfl
        have hmoves : Moves {} queued.core r.2.core := (heffect.returned hr).left
        have happlied : r.2.log.applied = (cl.nodes id).log.applied :=
          hmoves.sameBase.left.applied
        exact h.setNode (Nat.le_of_eq happlied.symm) (hqueued.moves hnone hmoves)
  | ready id =>
      rcases bind_eq_ok.mp hok with ⟨r, hr, hpure⟩
      cases hpure
      exact h.drain ha hr
  | compactTo id index =>
      rcases bind_eq_ok.mp hok with ⟨n, hn, hpure⟩
      cases hpure
      exact h.compactTo ha.left hn
  | deliver k =>
      cases hk : cl.network[k]? with
      | none =>
          rw [Cluster.exec, hk] at hok
          cases hok
          exact h
      | some m =>
          rw [Cluster.exec, hk] at hok
          rcases bind_eq_ok.mp hok with ⟨r, hr, hset⟩
          cases hset
          apply h.operation (ha m hk) _ (Node.step_input_effect.returned hr).left
          intro m' hm'
          cases hm'
          exact h.network m (List.mem_of_getElem? hk)

theorem InOrder.setNode (h : InOrder ids cl) {n : Node} (hclean : n.core.Clean fun _ => True)
    (hdistinct : n.Distinct) : InOrder (insert i ids) (cl.setNode i n) where
  nodes := by
    intro j hj
    change (Function.update cl.nodes i n j).core.Clean _ ∧
      (Function.update cl.nodes i n j).Distinct
    by_cases hji : j = i
    · rw [hji, Function.update_self]
      exact ⟨hclean, hdistinct⟩
    · rw [Function.update_of_ne hji]
      exact h.nodes j ((Finset.mem_insert.mp hj).resolve_left hji)
  network := h.network

theorem Node.restoreNode_empty {cfg : Config} {rec : Recovered} {applied : Nat} {n : Node}
    (hempty : rec.entries = []) (h : restoreNode cfg rec applied = .ok n) :
    n.log.entries = [] ∧ n.msgs = [] ∧ n.voters = cfg.peers.dedup ∧ n.learners = [] := by
  rw [restoreNode, newNode] at h
  split at h
  · cases h
  · rcases bind_eq_ok.mp h with ⟨log, hlog, h⟩
    have hents : log.entries = [] := (recoveredLog_eq hlog).right.trans hempty
    have hfold : forall (f : Node -> Entry × Nat -> Node) (m : Node),
        log.entries.zipIdx.foldl f m = m := by
      intro f m
      rw [hents]
      rfl
    split at h
    · cases h
    · split at h
      · cases h
      · dsimp only at h
        rw [hfold] at h
        cases h
        rcases resetElectionTimer_fields _ with ⟨_, _, _, htimer⟩
        rw [htimer]
        exact ⟨hents, rfl, rfl, rfl⟩

theorem InOrder.start (h : InOrder ids cl) {cfg : Config} {rec : Recovered} {applied : Nat}
    {n : Node} (hempty : rec.entries = []) (hok : Node.restoreNode cfg rec applied = .ok n) :
    InOrder (insert cfg.id ids) (cl.setNode cfg.id n) := by
  rcases Node.restoreNode_empty hempty hok with ⟨hents, hmsgs, hvoters, hlearners⟩
  apply h.setNode
  · constructor
    · change NumberedFrom _ n.log.entries
      rw [hents]
      exact NumberedFrom.nil _
    · intro e he
      change e ∈ n.log.entries at he
      rw [hents] at he
      cases he
    · intro m hm
      change m ∈ n.msgs at hm
      rw [hmsgs] at hm
      cases hm
  · rw [Node.Distinct, hvoters, hlearners]
    exact ⟨List.nodup_dedup _, List.nodup_nil⟩

theorem ConfInv.subset {ids' : Finset Nat} (h : ConfInv ids cl x s V) (hsub : ids' ⊆ ids) :
    ConfInv ids' cl x s V := by
  have hQ : forall e, Settling ids cl x e -> Settling ids' cl x e := by
    rintro e (heq | hall)
    · exact Or.inl heq
    · exact Or.inr fun j hj => hall j (hsub hj)
  exact ⟨h.about, fun i hi => (h.nodes i (hsub hi)).mono hQ,
    fun m hm => (h.network m hm).mono hQ⟩

def Roster.Inv (r : Roster) : Prop :=
  exists x s V, ConfInv r.running r.toCluster x s V

theorem Roster.Inv.exec {r r' : Roster} {a : ConfAction} (h : r.Inv) (ha : r.Allowed a)
    (hone : OneByOne r a) (hok : r.exec a = .ok r') : r'.Inv := by
  rcases h with ⟨x, s, V, h⟩
  cases a with
  | act a =>
      rcases bind_eq_ok.mp hok with ⟨cl, hcl, hpure⟩
      cases hpure
      exact ⟨x, s, V, h.exec ha hcl⟩
  | proposeConfChange id cc =>
      rcases bind_eq_ok.mp hok with ⟨y, hy, hpure⟩
      cases hpure
      exact h.proposeConfChange ha.left ha.right hone hy
  | start cfg rec applied =>
      have hsettled := hone r' hok
      rcases bind_eq_ok.mp hok with ⟨n, hn, hpure⟩
      cases hpure
      exact ⟨{}, cfg.id, _, (h.inOrder.start ha.right hn).confInv (Finset.mem_insert_self _ _)
        hsettled (Entry.about_of_type (by decide) _)⟩
  | stop id =>
      cases hok
      exact ⟨x, s, V, h.subset (Finset.erase_subset _ _)⟩

theorem Roster.inv_initial {cfg : ClusterConfig} (h : cfg.Initial cl) :
    (cfg.roster cl).Inv := by
  rcases h with ⟨hnodes, hnetwork, _, _⟩
  refine ⟨{}, 0, cfg.voters.erase 0, Entry.about_of_type (by decide) _, ?_, ?_⟩
  · intro i hi
    change NodeOK _ _ _ (cl.nodes i)
    have hcore := Node.core_newNodeConfig (hnodes i hi)
    have hvoters : (cl.nodes i).voters = (cfg.config i).peers.dedup :=
      congrArg Core.voters hcore
    have hlearners : (cl.nodes i).learners = [] := congrArg Core.learners hcore
    refine ⟨?_, ?_, ?_⟩
    · rw [hcore]
      refine ⟨NumberedFrom.nil _, ?_, ?_⟩
      · intro e he
        cases he
      · intro m hm
        cases hm
    · rw [Node.Distinct, hvoters, hlearners]
      exact ⟨List.nodup_dedup _, List.nodup_nil⟩
    · have hset : (cfg.config i).peers.dedup.toFinset = cfg.voters := by
        rw [← cfg.config_peers i hi]
        ext p
        rw [List.mem_toFinset, List.mem_dedup, List.mem_toFinset]
      rw [Node.members, hvoters, hset]
  · intro m hm
    change m ∈ cl.network at hm
    rw [hnetwork] at hm
    cases hm

theorem length_le_one_of_nodup {es : List Entry} (h : es.Nodup)
    (hx : forall e, e ∈ es -> e = x) : es.length ≤ 1 := by
  cases es with
  | nil => exact Nat.zero_le 1
  | cons a es =>
      cases es with
      | nil => exact Nat.le_refl 1
      | cons b es =>
          have hab : a = b :=
            (hx a List.mem_cons_self).trans
              (hx b (List.mem_cons_of_mem a List.mem_cons_self)).symm
          exact absurd (hab ▸ List.mem_cons_self) (List.nodup_cons.mp h).left

theorem card_symmDiff_of_erase {A B : Finset Nat} (h : A.erase s = B.erase s) :
    (symmDiff A B).card ≤ 1 := by
  have hsub : symmDiff A B ⊆ {s} := by
    intro a ha
    rw [Finset.mem_singleton]
    by_contra hne
    have hiff : a ∈ A.erase s <-> a ∈ B.erase s := by rw [h]
    rw [Finset.mem_symmDiff] at ha
    rw [Finset.mem_erase, Finset.mem_erase] at hiff
    tauto
  exact Finset.card_le_card hsub

theorem Roster.Inv.oneChange {r : Roster} (h : r.Inv) : OneChange r := by
  rcases h with ⟨x, s, V, h⟩
  constructor
  · intro i hi _
    have hnode := h.nodes i hi
    apply length_le_one_of_nodup (hnode.clean.numbered.nodup.filter _)
    intro e he
    rcases List.mem_filter.mp he with ⟨hlog, hcheck⟩
    rcases of_decide_eq_true hcheck with ⟨hconf, habove⟩
    rcases hnode.clean.log e hlog hconf with heq | hall
    · exact heq
    · have hle := hall i hi
      lia
  · intro i hi j hj
    exact card_symmDiff_of_erase ((h.nodes i hi).voters.trans (h.nodes j hj).voters.symm)

end Invariant

/-- In every run in which a change is accepted, and a server starts, only when every
earlier change is applied everywhere, there is one change at a time. -/
theorem oneChange_of_oneByOne (cfg : ClusterConfig) {start : Cluster} {r : Roster}
    (hstart : cfg.Initial start)
    (h : Reach Roster.exec (fun r a => r.Allowed a ∧ OneByOne r a) (cfg.roster start) r) :
    OneChange r :=
  (h.invariant (I := Roster.Inv)
    (fun _ _ _ hinv hguard hok => hinv.exec hguard.left hguard.right hok)
    (Roster.inv_initial hstart)).oneChange

namespace ClusterConfig

/-- Server 4 joins and is added; when all four have applied that, node 3 is removed. -/
def addThenRemove : List ConfAction :=
  electOne.map .act ++
    [.start { id := 4, peers := [1, 2, 3, 4] } {} 0,
      .proposeConfChange 1 { type := .addNode, node := 4 }, .act (.ready 1),
      .act (.deliver 11), .act (.ready 2), .act (.deliver 12), .act (.ready 3),
      .act (.deliver 13), .act (.ready 1), .act (.deliver 15), .act (.ready 2),
      .act (.deliver 16), .act (.ready 3), .act (.propose 1 [7]), .act (.ready 1),
      .act (.deliver 21), .act (.ready 4), .act (.deliver 22), .act (.ready 1),
      .act (.deliver 23), .act (.ready 4), .act (.ready 4),
      .proposeConfChange 1 { type := .removeNode, node := 3 }]

theorem oneChange_addThenRemove :
    exists r, runWhile Roster.exec (fun r a => r.Allowed a ∧ OneByOne r a)
        addThenRemove (three.roster three.start) = .ok r ∧
      r.running = {1, 2, 3, 4} ∧ (r.nodes 1).role = .leader ∧
      (r.nodes 1).inFlight.length = 1 ∧ (r.nodes 3).members = ({1, 2, 3, 4}, ∅) ∧
      (r.nodes 4).log.applied = 2 ∧ OneChange r := by
  have hrun : okWith
      (runWhile Roster.exec (fun r a => r.Allowed a ∧ OneByOne r a)
        addThenRemove (three.roster three.start))
      (fun r => r.running = {1, 2, 3, 4} ∧ (r.nodes 1).role = .leader ∧
        (r.nodes 1).inFlight.length = 1 ∧ (r.nodes 3).members = ({1, 2, 3, 4}, ∅) ∧
        (r.nodes 4).log.applied = 2) := by
    decide +kernel
  rcases exists_of_okWith hrun with ⟨r, hok, hcheck⟩
  rcases of_decide_eq_true hcheck with ⟨hrunning, hrole, hflight, hmembers, happlied⟩
  exact ⟨r, hok, hrunning, hrole, hflight, hmembers, happlied,
    oneChange_of_oneByOne three three.initial_start (Reach.of_runWhile hok)⟩

/-- Node 1 proposes a change, which reaches nodes 2 and 3 and is not committed.
Node 2 wins the next election and proposes another one. -/
def inheritedChange : List ConfAction :=
  electOne.map .act ++
    [.proposeConfChange 1 { type := .addNode, node := 4 }, .act (.ready 1),
      .act (.deliver 11), .act (.ready 2), .act (.deliver 12), .act (.ready 3),
      .act (.campaign 2), .act (.ready 2), .act (.deliver 16), .act (.ready 3),
      .act (.deliver 17), .act (.ready 2), .act (.deliver 19), .act (.ready 3),
      .act (.deliver 20), .proposeConfChange 2 { type := .addNode, node := 5 }]

def bothCommitted : List ConfAction :=
  [.act (.ready 2), .act (.deliver 24), .act (.ready 3), .act (.deliver 25),
    .act (.ready 2)]

/-- A leader has two changes in flight, and later its voters are two more than
those of the old leader. -/
theorem not_oneChange_inheritedChange :
    exists r r',
      Reach Roster.exec Roster.Allowed (three.roster three.start) r ∧
      (r.nodes 2).role = .leader ∧ (r.nodes 2).inFlight.length = 2 ∧
      ¬ OneChange r ∧
      Reach Roster.exec Roster.Allowed r r' ∧
      (r'.nodes 1).role = .leader ∧ (r'.nodes 1).members.1 = {1, 2, 3} ∧
      (r'.nodes 2).role = .leader ∧ (r'.nodes 2).members.1 = {1, 2, 3, 4, 5} ∧
      ¬ OneChange r' := by
  have hrun : okWith
      (do
        let r <- runWhile Roster.exec Roster.Allowed inheritedChange (three.roster three.start)
        let r' <- runWhile Roster.exec Roster.Allowed bothCommitted r
        pure (r, r'))
      (fun x => (x.1.nodes 2).role = .leader ∧ (x.1.nodes 2).inFlight.length = 2 ∧
        (x.2.nodes 1).role = .leader ∧ (x.2.nodes 1).members.1 = {1, 2, 3} ∧
        (x.2.nodes 2).role = .leader ∧ (x.2.nodes 2).members.1 = {1, 2, 3, 4, 5} ∧
        x.1.running = {1, 2, 3} ∧ x.2.running = {1, 2, 3}) := by
    decide +kernel
  rcases exists_of_okWith hrun with ⟨⟨r, r'⟩, hok, hcheck⟩
  rcases bind_eq_ok.mp hok with ⟨r1, hr, hok⟩
  rcases bind_eq_ok.mp hok with ⟨r2, hr', hpure⟩
  cases hpure
  rcases of_decide_eq_true hcheck with
    ⟨hrole, hflight, hrole1, hm1, hrole2, hm2, hrunning, hrunning'⟩
  refine ⟨r, r', Reach.of_runWhile hr, hrole, hflight, ?_, Reach.of_runWhile hr',
    hrole1, hm1, hrole2, hm2, ?_⟩
  · intro hone
    have hle := hone.left 2 (by rw [hrunning]; decide) hrole
    rw [hflight] at hle
    exact absurd hle (by decide)
  · intro hone
    have hle := hone.right 1 (by rw [hrunning']; decide) 2 (by rw [hrunning']; decide)
    rw [hm1, hm2] at hle
    exact absurd hle (by decide)

end ClusterConfig

end Raft
end Basalt
