import Basalt.Raft.Persistence
import Basalt.Raft.StorageCrash

/-!
# What a restart finds

A restarted node takes over what its state file describes, and an applied index
that the state machine tells it.  It panics unless the applied index lies
between the snapshot and the commit index, and the commit index in the log.
-/

namespace Basalt
namespace Raft

open Lib Relation

/-!
## The commit index never falls
-/

namespace RaftLog

variable {l l' : RaftLog}

theorem committed_compactTo {index : Nat}
    (h : l.compactTo index = .ok l') : l'.committed = l.committed := by
  rw [compactTo] at h
  split at h
  · cases h
    rfl
  · split at h
    · cases h
    · split at h
      · cases h
      · cases h
        rfl

theorem committed_le_commitTo {i : Nat} (h : l.commitTo i = .ok l') :
    l.committed ≤ l'.committed := by
  rw [committed_commitTo h]
  exact Nat.le_max_left _ _

theorem committed_le_maybeAppend {prevIndex prevTerm commit : Nat} {es : List Entry}
    {last : Option Nat}
    (h : l.maybeAppend prevIndex prevTerm commit es = .ok (last, l')) :
    l.committed ≤ l'.committed := by
  cases last with
  | none => rw [maybeAppend_none h]
  | some lastNew =>
      rcases maybeAppend_some h with ⟨_, _, mid, hmid, hlast⟩
      rw [← committed_appendNew hmid]
      exact committed_le_commitTo hlast

end RaftLog

structure Core.Follows (c c' : Core) : Prop where
  base : RaftLog.SameBase c.log c'.log
  stabled : c'.stabled = c.stabled
  prevHard : c'.prevHard = c.prevHard
  committed : c.log.committed ≤ c'.log.committed

namespace Core.Follows

variable {c c' c'' : Core}

theorem refl (c : Core) : Follows c c where
  base := RaftLog.SameBase.refl _
  stabled := rfl
  prevHard := rfl
  committed := Nat.le_refl _

theorem trans (h : Follows c c') (h' : Follows c' c'') : Follows c c'' where
  base := h.base.trans h'.base
  stabled := h'.stabled.trans h.stabled
  prevHard := h'.prevHard.trans h.prevHard
  committed := Nat.le_trans h.committed h'.committed

theorem move {inp : Input} (h : Move inp c c') : Follows c c' := by
  have hbase := h.sameBase
  cases h with
  | append _ _ hlog =>
      exact ⟨hbase.left, rfl, rfl, Nat.le_of_eq (RaftLog.committed_append hlog).symm⟩
  | commit _ _ _ hlog => exact ⟨hbase.left, rfl, rfl, RaftLog.committed_le_commitTo hlog⟩
  | accept _ _ _ _ happ =>
      exact ⟨hbase.left, rfl, rfl, RaftLog.committed_le_maybeAppend happ⟩
  | _ => exact ⟨hbase.left, rfl, rfl, Nat.le_refl _⟩

theorem moves {inp : Input} (h : Moves inp c c') : Follows c c' := by
  induction h with
  | refl => exact Follows.refl _
  | tail _ hlast ih => exact ih.trans (Follows.move hlast)

theorem effect {post : Node -> Prop} {x : Except Panic Node} {n : Node}
    (h : Effect {} c post x) (hx : x = .ok n) : Follows c n.core :=
  Follows.moves (h.returned hx).left

theorem effectOf {α : Type} {post : α × Node -> Prop} {x : Except Panic (α × Node)}
    {a : α × Node} (h : EffectOf {} c post x) (hx : x = .ok a) : Follows c a.2.core :=
  Follows.moves (h.returned hx).left

end Core.Follows

theorem Node.follows_readIndex {n : Node} {id : Nat} {x : Bool × Node}
    (h : n.readIndex id = .ok x) : Core.Follows n.core x.2.core := by
  rcases Node.readIndex_effect (n := n) {} id with hfalse | ⟨_, _, heffect⟩
  · rw [hfalse] at h
    cases h
    exact Core.Follows.refl _
  · have hqueued : Core.Follows n.core (n.core.queueRead id) :=
      ⟨RaftLog.SameBase.refl _, rfl, rfl, Nat.le_refl _⟩
    exact hqueued.trans (Core.Follows.effectOf heffect h)

theorem Node.follows_proposeConfChange {n : Node} {cc : ConfChange}
    {x : Option ProposeError × Node} (h : n.proposeConfChange cc = .ok x) :
    Core.Follows n.core x.2.core := by
  rw [Node.proposeConfChange] at h
  split at h
  · cases h
    exact Core.Follows.refl _
  · next hrole =>
      split at h
      · cases h
        exact Core.Follows.refl _
      · rcases bind_eq_ok.mp h with ⟨log, hlog, h⟩
        rcases bind_eq_ok.mp h with ⟨y, hy, h⟩
        rcases bind_eq_ok.mp h with ⟨n2, hn2, hpure⟩
        cases hpure
        let next : Node := { n with log := log, pendingConfIndex := n.log.lastIndex + 1 }
        have happend : Core.Follows n.core next.core :=
          ⟨RaftLog.sameBase_append hlog, rfl, rfl,
            Nat.le_of_eq (RaftLog.committed_append hlog).symm⟩
        have hcommit : EffectOf {} next.core (fun r => Node.Keeps next r.2)
            next.maybeCommit := Node.maybeCommit_effect
        have hleader : y.2.role = .leader :=
          (Node.Keeps.role (hcommit.returned hy).right).trans (not_not.mp hrole)
        exact (happend.trans (Core.Follows.effectOf hcommit hy)).trans
          (Core.Follows.effect (Node.bcastAppend_effect hleader) hn2)

theorem Replica.follows_feed {n n' : Node} {ev : Replica.Event}
    (h : Replica.feed n ev = .ok n') : Core.Follows n.core n'.core := by
  cases ev with
  | step m =>
      rcases bind_eq_ok.mp h with ⟨x, hx, hpure⟩
      cases hpure
      exact Core.Follows.moves (Node.step_input_effect.returned hx).left
  | tick => exact Core.Follows.effect Node.tick_effect h
  | campaign =>
      by_cases hrole : n.role = .leader
      · change n.campaign = .ok n' at h
        rw [Node.campaign] at h
        split at h
        · cases h
          exact Core.Follows.refl _
        · rw [Node.becomePreCandidate, if_pos hrole] at h
          cases h
      · exact Core.Follows.effect (Node.campaign_effect hrole) h
  | propose data =>
      rcases bind_eq_ok.mp h with ⟨x, hx, hpure⟩
      cases hpure
      exact Core.Follows.moves (Node.step_input_effect.returned hx).left
  | proposeConfChange cc =>
      rcases bind_eq_ok.mp h with ⟨x, hx, hpure⟩
      cases hpure
      exact Node.follows_proposeConfChange hx
  | transferLeader target =>
      rcases bind_eq_ok.mp h with ⟨x, hx, hpure⟩
      cases hpure
      exact Core.Follows.effectOf (Node.transferLeader_effect target) hx
  | readIndex id =>
      rcases bind_eq_ok.mp h with ⟨x, hx, hpure⟩
      cases hpure
      exact Node.follows_readIndex hx
  | drain | compact index =>
      cases h
      exact Core.Follows.refl _

/-!
## Acknowledging a batch
-/

theorem RaftLog.committed_appliedTo {l l' : RaftLog} {i : Nat} (h : l.appliedTo i = .ok l') :
    l'.committed = l.committed := by
  rw [appliedTo] at h
  split at h
  · cases h
  · cases h
    rfl

theorem Node.entries_maybeCommit {n : Node} {x : Bool × Node} (h : n.maybeCommit = .ok x) :
    x.2.log.entries = n.log.entries := by
  rw [maybeCommit] at h
  split at h
  · cases h
    rfl
  · dsimp only at h
    split at h
    · cases h
    · split at h
      · cases h
        rfl
      · split at h
        · cases h
          rfl
        · rcases bind_eq_ok.mp h with ⟨log, hlog, hpure⟩
          cases hpure
          exact RaftLog.commitTo_entries hlog

structure Node.Advanced (n : Node) (rd : Ready) (n' : Node) : Prop where
  prevHard : n'.prevHard = rd.hardState.getD n.prevHard
  committed : n.log.committed ≤ n'.log.committed
  entries : n'.log.entries = n.log.entries
  snapIndex : n'.log.snapIndex = n.log.snapIndex
  applied : n'.log.applied =
    (rd.committedEntries.getLast?.map Entry.index).getD n.log.applied

theorem Node.advanceStable_log {n n' : Node} {ents : List Entry}
    (h : n.advanceStable ents = .ok n') :
    n'.prevHard = n.prevHard ∧ n.log.committed ≤ n'.log.committed ∧
      n'.log.entries = n.log.entries ∧ n'.log.snapIndex = n.log.snapIndex ∧
      n'.log.applied = n.log.applied := by
  rw [advanceStable] at h
  split at h
  · cases h
    exact ⟨rfl, Nat.le_refl _, rfl, rfl, rfl⟩
  · next e _ =>
      rcases bind_eq_ok.mp h with ⟨x, hx, hpure⟩
      cases hpure
      let next : Node := { n with stabled := e.index }
      have hcommit : EffectOf {} next.core (fun r => Node.Keeps next r.2)
          next.maybeCommit := Node.maybeCommit_effect
      have hfollows := Core.Follows.effectOf hcommit hx
      have hents : x.2.log.entries = next.log.entries := entries_maybeCommit hx
      exact ⟨hfollows.prevHard, hfollows.committed, hents, hfollows.base.snapIndex,
        hfollows.base.applied⟩

theorem Node.advanceApplied_log {n n' : Node} {ents : List Entry}
    (h : n.advanceApplied ents = .ok n') :
    n'.prevHard = n.prevHard ∧ n'.log.committed = n.log.committed ∧
      n'.log.entries = n.log.entries ∧ n'.log.snapIndex = n.log.snapIndex ∧
      n'.log.applied = (ents.getLast?.map Entry.index).getD n.log.applied ∧
      n'.stabled = n.stabled := by
  rw [advanceApplied] at h
  split at h
  · next hnone =>
      cases h
      rw [hnone]
      exact ⟨rfl, rfl, rfl, rfl, rfl, rfl⟩
  · next e hsome =>
      rcases bind_eq_ok.mp h with ⟨log, hlog, hpure⟩
      cases hpure
      rcases sameButMembers_foldl ents n with ⟨_, _, _, _, hcore⟩
      have hsame : (ents.foldl applyConfEntry n).log = n.log := congrArg Core.log hcore
      have hprev : (ents.foldl applyConfEntry n).prevHard = n.prevHard :=
        congrArg Core.prevHard hcore
      rcases RaftLog.appliedTo_entries hlog with ⟨hents, hsnap, happlied⟩
      have hcommitted := RaftLog.committed_appliedTo hlog
      rw [hsame] at hents hsnap hcommitted
      rw [hsome]
      exact ⟨hprev, hcommitted, hents, hsnap, happlied, congrArg Core.stabled hcore⟩

theorem Node.advance_log {n n' : Node} {rd : Ready} (h : n.advance rd = .ok n') :
    n.Advanced rd n' := by
  rcases bind_eq_ok.mp h with ⟨n1, hn1, h⟩
  rcases bind_eq_ok.mp h with ⟨n2, hn2, hpure⟩
  cases hpure
  rcases advanceStable_log hn1 with ⟨hprev1, hcommitted1, hents1, hsnap1, happlied1⟩
  rcases advanceApplied_log hn2 with ⟨hprev2, hcommitted2, hents2, hsnap2, happlied2, _⟩
  rw [happlied1] at happlied2
  exact {
    prevHard := hprev2.trans hprev1
    committed := Nat.le_trans hcommitted1 (Nat.le_of_eq hcommitted2.symm)
    entries := hents2.trans hents1
    snapIndex := hsnap2.trans hsnap1
    applied := happlied2 }

theorem Node.nextCommitted_ok {n : Node} {rec : Recovered}
    (hback : Backed n.log n.stabled rec) :
    exists ents, n.nextCommitted = .ok ents ∧ NumberedFrom (n.log.applied + 1) ents ∧
      n.log.applied + ents.length = min n.log.committed n.stabled := by
  have hoff := n.log.offset_eq
  have hsnap := n.log.snapIndex_le
  have hlast := n.log.lastIndex_eq
  have hbound := n.log.committed_le_lastIndex
  have happlied := n.log.applied_le
  have hstable := hback.applied_le
  rw [nextCommitted]
  split
  · rw [RaftLog.slice_ok (by lia) (by lia) (by lia)]
    refine ⟨_, rfl, ?_, ?_⟩
    · have hnum := (hback.numbered.drop (n.log.applied + 1 - n.log.offset)).take
        (min n.log.committed n.stabled + 1 - (n.log.applied + 1))
      have hfirst : n.log.snapIndex + 1 + (n.log.applied + 1 - n.log.offset) =
          n.log.applied + 1 := by lia
      rw [hfirst] at hnum
      exact hnum
    · rw [List.length_take, List.length_drop]
      lia
  · refine ⟨[], rfl, NumberedFrom.nil _, ?_⟩
    show n.log.applied + 0 = _
    lia

/-!
## Restoring a node
-/

theorem Node.recoveredLog_start (rec : Recovered) :
    (if 0 < rec.snapIndex then snapshotLog rec.snapIndex rec.snapTerm else newLog).lastIndex =
        rec.snapIndex ∧
      (if 0 < rec.snapIndex then snapshotLog rec.snapIndex rec.snapTerm else newLog).committed =
        rec.snapIndex := by
  split
  · exact ⟨rfl, rfl⟩
  · next hpos =>
      have hzero : rec.snapIndex = 0 := by lia
      rw [hzero]
      exact ⟨rfl, rfl⟩

theorem Node.recoveredLog_committed {rec : Recovered} {log : RaftLog}
    (h : recoveredLog rec = .ok log) : log.committed = max rec.snapIndex rec.hardState.commit := by
  rcases bind_eq_ok.mp h with ⟨mid, hmid, hlog⟩
  rw [RaftLog.committed_commitTo hlog, RaftLog.committed_append hmid, (recoveredLog_start rec).right]

theorem Node.recoveredLog_ok {rec : Recovered} (hnum : rec.Numbered)
    (hcommit : rec.hardState.commit ≤ rec.snapIndex + rec.entries.length) :
    exists log, recoveredLog rec = .ok log := by
  let start := if 0 < rec.snapIndex then snapshotLog rec.snapIndex rec.snapTerm else newLog
  have hstart : start.lastIndex = rec.snapIndex := (recoveredLog_start rec).left
  have hfirst : forall e, rec.entries[0]? = some e -> e.index = start.lastIndex + 1 := by
    intro e he
    rw [hstart]
    exact hnum 0 e he
  rcases RaftLog.append_ok hfirst with ⟨mid, hmid⟩
  have hbase := RaftLog.sameBase_append hmid
  have hlast : rec.hardState.commit ≤ mid.lastIndex := by
    have hents := (RaftLog.append_entries hmid).left
    have hmidLast := mid.lastIndex_eq
    have hstartLast := start.lastIndex_eq
    rw [hents, List.length_append, hbase.snapIndex] at hmidLast
    lia
  rcases RaftLog.commitTo_ok hlast with ⟨log, hlog⟩
  exact ⟨log, bind_eq_ok.mpr ⟨mid, hmid, hlog⟩⟩

theorem Node.restoreNode_ok {cfg : Config} {rec : Recovered} {applied : Nat}
    (hmember : cfg.id ∈ cfg.peers) (hnum : rec.Numbered) (hsnap : rec.snapIndex ≤ applied)
    (happlied : applied ≤ rec.hardState.commit)
    (hcommit : rec.hardState.commit ≤ rec.snapIndex + rec.entries.length) :
    exists n, restoreNode cfg rec applied = .ok n ∧ n.log.snapIndex = rec.snapIndex ∧
      n.log.entries = rec.entries ∧ n.log.applied = applied ∧
      n.log.committed = rec.hardState.commit ∧ n.stabled = n.log.lastIndex ∧
      n.prevHard.commit = rec.hardState.commit := by
  rcases recoveredLog_ok hnum hcommit with ⟨log, hlog⟩
  have hcommitted := recoveredLog_committed hlog
  rcases recoveredLog_eq hlog with ⟨hlogSnap, hents⟩
  have hmax : log.committed = rec.hardState.commit := by
    rw [hcommitted]
    exact Nat.max_eq_right (Nat.le_trans hsnap happlied)
  have hbeyond : ¬ log.committed < applied := by
    rw [hmax]
    exact Nat.not_lt.mpr happlied
  have hbelow : ¬ applied < log.snapIndex := by
    rw [hlogSnap]
    exact Nat.not_lt.mpr hsnap
  let restored : RaftLog :=
    { log with
      applied := applied
      snapIndex_le := Nat.le_of_not_lt hbelow
      applied_le := Nat.le_of_not_lt hbeyond }
  have hrun : exists m : Node,
      restoreNode cfg rec applied = .ok { m with prevHard := m.hardState }.resetElectionTimer ∧
      m.core.lasting = (cfg.id, .follower, rec.hardState.term, rec.hardState.vote, restored,
        log.lastIndex) := by
    rw [restoreNode, newNode, if_neg (not_not.mpr hmember), hlog]
    show exists m : Node, (if hc : log.committed < applied then _
      else if hs : applied < log.snapIndex then _ else _) = Except.ok _ ∧ _
    rw [dif_neg hbeyond, dif_neg hbelow]
    exact ⟨_, rfl, lasting_foldl_replayConfEntry log.offset log.entries.zipIdx _⟩
  rcases hrun with ⟨m, hm, hlasting⟩
  have hcore := core_resetElectionTimer { m with prevHard := m.hardState }
  have hmlog : m.log = restored := congrArg (fun x => x.2.2.2.2.1) hlasting
  have hnlog : { m with prevHard := m.hardState }.resetElectionTimer.log = restored :=
    (congrArg Core.log hcore).trans hmlog
  have hstabled : { m with prevHard := m.hardState }.resetElectionTimer.stabled =
      log.lastIndex :=
    (congrArg Core.stabled hcore).trans (congrArg (fun x => x.2.2.2.2.2) hlasting)
  have hprev : { m with prevHard := m.hardState }.resetElectionTimer.prevHard.commit =
      m.log.committed := congrArg (fun c => c.prevHard.commit) hcore
  refine ⟨_, hm, ?_, ?_, ?_, ?_, ?_, ?_⟩
  · rw [hnlog]
    exact hlogSnap
  · rw [hnlog]
    exact hents
  · rw [hnlog]
  · rw [hnlog]
    exact hmax
  · rw [hnlog, hstabled]
    rfl
  · rw [hprev, hmlog]
    exact hmax

/-!
## Saving a batch record by record

A crash may leave any first part of the records of a batch.
-/

/-- The records `ps` lead from `rec` to `target`, and all that they pass has the
property. -/
def Leads (P : Recovered -> Prop) (target : Recovered) : Recovered -> List Bytes -> Prop
  | rec, [] => P rec ∧ rec = target
  | rec, p :: ps => P rec ∧ (Wal.framing.valid p ->
      exists rec', applyRecord rec p = .ok rec' ∧ Leads P target rec' ps)

section Leads

variable {P : Recovered -> Prop} {target rec : Recovered}

theorem Leads.here {ps : List Bytes} (h : Leads P target rec ps) : P rec := by
  cases ps with
  | nil | cons p ps => exact h.left

theorem Leads.after {done ps : List Bytes} (h : Leads P target rec (done ++ ps))
    (hvalid : forall p, p ∈ done -> Wal.framing.valid p) :
    exists rec', done.foldlM applyRecord rec = .ok rec' ∧ Leads P target rec' ps := by
  induction done generalizing rec with
  | nil => exact ⟨rec, rfl, h⟩
  | cons p done ih =>
      rcases h.right (hvalid p List.mem_cons_self) with ⟨next, hnext, hrest⟩
      rcases ih hrest (fun x hx => hvalid x (List.mem_cons_of_mem p hx)) with
        ⟨rec', hfold, hleads⟩
      exact ⟨rec', bind_eq_ok.mpr ⟨next, hnext, hfold⟩, hleads⟩

end Leads

/-- What may be recovered while a batch is saved: its hard state only with all of
its entries, and nothing that was persisted before is missing. -/
structure Partly (rec : Recovered) (log : RaftLog) (stabled : Nat) (hard : Option HardState)
    (r : Recovered) : Prop where
  snapIndex : r.snapIndex = rec.snapIndex
  stored : stabled ≤ r.snapIndex + r.entries.length
  hardState : r.hardState = rec.hardState ∨
    (r.entries = log.entries ∧ hard = some r.hardState)

section Saving

variable {rec : Recovered} {log : RaftLog} {stabled : Nat} {rd : Ready}

theorem leads_hardPayloads (rec : Recovered) (hsnap : rec.snapIndex = log.snapIndex)
    (hle : stabled ≤ log.lastIndex) (hents : rec.entries = log.entries)
    (hhard : forall hs, rd.hardState = some hs -> hs.InRange) (base : Recovered)
    (hbase : base.snapIndex = rec.snapIndex) (hsame : base.hardState = rec.hardState) :
    Leads (Partly base log stabled rd.hardState)
      { rec with hardState := rd.hardState.getD rec.hardState } rec
      (hardPayloads rd.hardState) := by
  have hlast := log.lastIndex_eq
  have hstored : stabled ≤ rec.snapIndex + rec.entries.length := by
    rw [hsnap, hents]
    lia
  have hstart : Partly base log stabled rd.hardState rec :=
    ⟨hbase.symm, hstored, Or.inl hsame.symm⟩
  cases hcase : rd.hardState with
  | none =>
      rw [hcase] at hstart
      exact ⟨hstart, rfl⟩
  | some hs =>
      rw [hcase] at hstart
      refine ⟨hstart, fun _ => ?_⟩
      refine ⟨_, applyRecord_hardState rec (hhard hs hcase), ?_, rfl⟩
      exact ⟨hbase.symm, hstored, Or.inr ⟨hents, rfl⟩⟩

theorem leads_readyPayloads {lastIndex : Nat} (hback : Backed log stabled rec)
    (hlast : lastIndex = rec.snapIndex + rec.entries.length)
    (hents : rd.entries = log.entries.drop (stabled - log.snapIndex))
    (hrange : forall e, e ∈ rd.entries -> e.InRange)
    (hhard : forall hs, rd.hardState = some hs -> hs.InRange) :
    Leads (Partly rec log stabled rd.hardState)
      { rec with
        hardState := rd.hardState.getD rec.hardState
        entries := log.entries } rec (readyPayloads lastIndex rd) := by
  have hsnap := hback.snapIndex_eq
  have hsnapLe := hback.snap_le
  have hstored := hback.stored_le
  have hlogLast := log.lastIndex_eq
  have hstart : Partly rec log stabled rd.hardState rec := ⟨rfl, hstored, Or.inl rfl⟩
  let full : Recovered := { rec with entries := log.entries }
  have hfull : Leads (Partly rec log stabled rd.hardState)
      { full with hardState := rd.hardState.getD full.hardState } full
      (hardPayloads rd.hardState) :=
    leads_hardPayloads full hsnap hback.stabled_le rfl hhard rec rfl rfl
  rw [readyPayloads]
  cases hcase : rd.entries with
  | nil =>
      -- Nothing is unpersisted, so that the stored entries are those of the log.
      rw [hcase] at hents
      have hlen := congrArg List.length hents
      rw [List.length_nil, List.length_drop] at hlen
      have hdone : stabled = log.lastIndex := by
        have hle := hback.stabled_le
        lia
      have hsame : rec.entries = log.entries := by
        have htake := hback.take_eq
        have hcomplete := hback.complete hdone
        rw [List.take_of_length_le (by lia), List.take_of_length_le (by lia)] at htake
        exact htake
      have hrec : full = rec := by
        show { rec with entries := log.entries } = rec
        rw [← hsame]
      rw [hrec] at hfull
      show Leads _ { rec with
        hardState := rd.hardState.getD rec.hardState, entries := log.entries } rec
        (hardPayloads rd.hardState)
      rw [← hsame]
      exact hfull
  | cons e rest =>
      let k := stabled - log.snapIndex
      have hnum : NumberedFrom (rec.snapIndex + k + 1) (e :: rest) := by
        have hdrop := hback.numbered.drop k
        rw [hsnap, Nat.add_right_comm, ← hcase, hents]
        exact hdrop
      have hidx : e.index = rec.snapIndex + k + 1 := hnum 0 e rfl
      have hk : k ≤ rec.entries.length := by lia
      let cut : Recovered := { rec with entries := rec.entries.take k }
      have hcutLen : cut.entries.length = k := by
        show (rec.entries.take k).length = k
        rw [List.length_take]
        lia
      have hcut : Partly rec log stabled rd.hardState cut := by
        refine ⟨rfl, ?_, Or.inl rfl⟩
        rw [hcutLen]
        show stabled ≤ rec.snapIndex + k
        lia
      have hwhole : rec.entries.take k ++ (e :: rest) = log.entries := by
        rw [hback.take_eq, ← hcase, hents]
        exact List.take_append_drop _ _
      have hbatch : Leads (Partly rec log stabled rd.hardState)
          { full with hardState := rd.hardState.getD full.hardState } cut
          ((recEntries :: encodeEntries (e :: rest)) :: hardPayloads rd.hardState) := by
        refine ⟨hcut, fun hvalid => ⟨full, ?_, hfull⟩⟩
        rw [hcase] at hrange
        rw [applyRecord_entries _ hrange hvalid, foldlM_applyEntry]
        · show Except.ok { rec with entries := rec.entries.take k ++ (e :: rest) } = _
          rw [hwhole]
        · rw [hcutLen]
          exact hnum
      rw [entriesPayloads]
      split
      · next hle =>
          refine ⟨hstart, fun _ => ⟨cut, ?_, hbatch⟩⟩
          have hin : e.index < rangeLE 8 := (hrange e (by rw [hcase]; exact List.mem_cons_self)).left
          have hpos : e.index - rec.snapIndex - 1 = k := by lia
          rw [applyRecord_truncate rec hin, applyTruncate, if_neg (by lia)]
          simp only [hpos]
          rw [if_pos (by lia)]
      · next hgt =>
          have hsame : cut = rec := by
            show { rec with entries := rec.entries.take k } = rec
            rw [List.take_of_length_le (by lia)]
          rw [hsame] at hbatch
          exact hbatch

end Saving

end Raft
end Basalt
