import Basalt.Raft.LogView
import Basalt.Raft.Operations

/-!
# Backing up to a follower's log

A leader that does not know how far a follower agrees with it sends appends
from its next index.  A refusal carries a hint, and the leader tries again from
there.  The hint never lies below the follower's snapshot as long as the probe
does not, and from below the snapshot the leader never gets out.
-/

namespace Basalt
namespace Raft

open Lib Lib.ReplicatedLog

/-- One exchange after another until the follower accepts: a request reaches
the follower and its refusal the leader, who answers with the next request. -/
def converse : Nat -> Node -> Node -> Message -> Except Panic (Option Node)
  | 0, _, _, _ => pure none
  | fuel + 1, leader, follower, request => do
      let follower <- follower.handleApp request
      match follower.msgs.getLast? with
      | none => pure none
      | some answer =>
          if answer.reject then do
            let leader <- leader.handleAppResp answer
            match leader.msgs.getLast? with
            | none => pure none
            | some request => converse fuel leader follower request
          else pure (some follower)

def backtrack (fuel : Nat) (leader follower : Node) : Except Panic (Option Node) := do
  let leader <- leader.sendAppend follower.id
  match leader.msgs.getLast? with
  | none => pure none
  | some request => converse fuel leader follower request

/-- After finitely many exchanges the follower accepts.  It then has what the
leader has, and its commit index has not fallen. -/
def Converges (leader follower : Node) : Prop :=
  exists fuel follower', backtrack fuel leader follower = .ok (some follower') ∧
    leader.log.lastIndex ≤ follower'.log.lastIndex ∧
    (forall i, follower'.log.snapIndex < i -> i ≤ leader.log.lastIndex ->
      follower'.log.entryAt i = leader.log.entryAt i) ∧
    leader.log.term follower'.log.snapIndex = some follower'.log.snapTerm ∧
    follower.log.committed ≤ follower'.log.committed

/-- A leader whose log is the list `T`, none of it compacted, and a follower at
its term whose log is `F`.  Entries of one index and term come with the same
entries before them, and what the follower has committed is in `T`. -/
structure CatchUp (leader follower : Node) (T F : List Entry) : Prop where
  leads : leader.role = .leader
  sameTerm : follower.term = leader.term
  uncompacted : leader.log.snapIndex = 0
  leaderLog : View leader.log T
  followerLog : View follower.log F
  agrees : forall k e d, F[k]? = some e -> T[k]? = some d -> e.term = d.term ->
    F.take (k + 1) = T.take (k + 1)
  committed : F.take follower.log.committed <+: T

namespace Node

def probe (leader : Node) (T : List Entry) (k target : Nat) : Message :=
  leader.core.stamp
    { type := .app
      toId := target
      logIndex := k
      logTerm := termAt Entry.term T k
      entries := T.drop k
      commit := min leader.log.committed T.length }

theorem sendAppend_probe {leader : Node} {T : List Entry} {k target : Nat}
    (hview : View leader.log T) (hzero : leader.log.snapIndex = 0)
    (hnext : leader.nextIndex target = some (k + 1)) (hk : k ≤ T.length) :
    leader.sendAppend target =
      .ok { leader with msgs := leader.msgs ++ [leader.probe T k target] } := by
  have hslice : leader.log.slice (k + 1) (T.length + 1) =
      .ok ((T.drop k).take (T.length - k)) :=
    hview.slice (by lia) hk (Nat.le_refl _)
  have htail : (T.drop k).take (T.length - k) = T.drop k := by
    apply List.take_of_length_le
    rw [List.length_drop]
  have hlen : k + (T.drop k).length = T.length := by
    rw [List.length_drop]
    lia
  have hprev : prevIndexOf (Option.getD (some (k + 1)) 0) = k := rfl
  unfold sendAppend
  dsimp only
  rw [hnext, hprev, hview.term_inside (by lia) hk]
  show (leader.log.slice (k + 1) (leader.log.lastIndex + 1) >>= _) = _
  rw [hview.lastIndex, hslice, htail]
  show Except.ok (leader.send _) = _
  rw [hlen]
  rfl

theorem handleApp_refuses {follower : Node} {m : Message}
    (h : follower.log.term m.logIndex ≠ some m.logTerm) :
    exists follower', follower.handleApp m = .ok follower' ∧
      follower'.core = ({ follower.core with role := .follower } : Core).say
        { type := .appResp
          toId := m.fromId
          reject := true
          logIndex := min m.logIndex (follower.log.lastIndex + 1) } := by
  rw [handleApp]
  generalize hn : Node.resetElectionTimer
    { follower with role := .follower, lead := m.fromId } = n
  have hcore : n.core = { follower.core with role := .follower } := by
    rw [← hn, core_resetElectionTimer]
    rfl
  have hlog : n.log = follower.log := congrArg Core.log hcore
  have hhint : min m.logIndex (n.log.lastIndex + 1) =
      if m.logIndex < n.log.lastIndex + 1 then m.logIndex else n.log.lastIndex + 1 := by
    split
    · lia
    · lia
  rw [← hcore, ← hlog, hhint]
  rw [← hlog] at h
  dsimp only
  rw [RaftLog.maybeAppend, if_neg h]
  exact ⟨_, rfl, rfl⟩

theorem handleApp_accepts {follower : Node} {m : Message} {lastNew : Nat} {log : RaftLog}
    (h : follower.log.maybeAppend m.logIndex m.logTerm m.commit m.entries =
      .ok (some lastNew, log)) :
    exists follower', follower.handleApp m = .ok follower' ∧
      follower'.core = ({ follower.core with role := .follower, log := log } : Core).say
        { type := .appResp, toId := m.fromId, logIndex := lastNew } := by
  rw [handleApp]
  generalize hn : Node.resetElectionTimer
    { follower with role := .follower, lead := m.fromId } = n
  have hcore : n.core = { follower.core with role := .follower } := by
    rw [← hn, core_resetElectionTimer]
    rfl
  have hlog : n.log = follower.log := congrArg Core.log hcore
  have hnew : ({ n with log := log } : Node).core =
      { follower.core with role := .follower, log := log } := by
    show { n.core with log := log } = _
    rw [hcore]
  rw [← hnew]
  dsimp only
  rw [hlog, h]
  exact ⟨_, rfl, rfl⟩

theorem handleAppResp_refused {leader : Node} {m : Message} {next : Nat}
    (hrole : leader.role = .leader) (hreject : m.reject = true)
    (hnext : leader.nextIndex m.fromId = some next) (hlt : m.logIndex < next) :
    leader.handleAppResp m =
      { leader with
        nextIndex :=
          Function.update leader.nextIndex m.fromId
            (some (max m.logIndex 1)) }.sendAppend m.fromId := by
  unfold handleAppResp
  rw [if_neg (not_not.mpr hrole), if_pos hreject, hnext]
  show Node.sendAppend (if m.logIndex < next then _ else leader) m.fromId = _
  rw [if_pos hlt]

end Node

theorem getLast?_msgs_of_say {n : Node} {c : Core} {m : Message} (h : n.core = c.say m) :
    n.msgs.getLast? = some (c.stamp m) := by
  have hmsgs : n.msgs = c.msgs ++ [c.stamp m] := congrArg Core.msgs h
  rw [hmsgs]
  exact List.getLast?_concat

section CatchUp

variable {leader follower : Node} {T F : List Entry}

theorem CatchUp.congr {leader' follower' : Node} (h : CatchUp leader follower T F)
    (hrole : leader'.role = leader.role) (hterm : leader'.term = leader.term)
    (hlog : leader'.log = leader.log) (hterm' : follower'.term = follower.term)
    (hlog' : follower'.log = follower.log) : CatchUp leader' follower' T F where
  leads := hrole.trans h.leads
  sameTerm := by rw [hterm, hterm', h.sameTerm]
  uncompacted := by rw [hlog, h.uncompacted]
  leaderLog := by
    rw [hlog]
    exact h.leaderLog
  followerLog := by
    rw [hlog']
    exact h.followerLog
  agrees := h.agrees
  committed := by
    rw [hlog']
    exact h.committed

theorem CatchUp.term_snapIndex (h : CatchUp leader follower T F) :
    follower.log.snapIndex ≤ T.length ∧
      follower.log.snapTerm = termAt Entry.term T follower.log.snapIndex := by
  have hlen := h.committed.length_le
  have hsnap := Nat.le_trans follower.log.snapIndex_le follower.log.applied_le
  have hF := h.followerLog.committed_le
  rw [List.length_take] at hlen
  refine ⟨by lia, ?_⟩
  rw [h.followerLog.snapTerm_eq,
    termAt_of_pre Entry.term h.committed (by rw [List.length_take]; lia),
    termAt_of_pre Entry.term (List.take_prefix follower.log.committed F)
      (by rw [List.length_take]; lia)]

theorem CatchUp.take_eq (h : CatchUp leader follower T F) {k : Nat}
    (hk : k ≤ T.length) (hterm : follower.log.term k = some (termAt Entry.term T k)) :
    F.take k = T.take k ∧ k ≤ F.length ∧ follower.log.snapIndex ≤ k := by
  rcases h.followerLog.bounds_of_term hterm with ⟨hsnap, hlen, hsame⟩
  refine ⟨?_, hlen, hsnap⟩
  cases k with
  | zero => rfl
  | succ k =>
      have hF : F[k]? = some F[k] := List.getElem?_eq_getElem (by lia)
      have hT : T[k]? = some T[k] := List.getElem?_eq_getElem (by lia)
      rw [termAt_succ_of_getElem? Entry.term hF, termAt_succ_of_getElem? Entry.term hT] at hsame
      exact h.agrees k _ _ hF hT hsame

theorem CatchUp.accepts (h : CatchUp leader follower T F) {k commit : Nat}
    (hk : k ≤ T.length) (hterm : follower.log.term k = some (termAt Entry.term T k))
    (hcommit : commit ≤ T.length) :
    exists log F', follower.log.maybeAppend k (termAt Entry.term T k) commit (T.drop k) =
        .ok (some T.length, log) ∧
      View log F' ∧ T <+: F' ∧ log.snapIndex = follower.log.snapIndex ∧
      follower.log.committed ≤ log.committed := by
  rcases h.take_eq hk hterm with ⟨htake, hlen, hsnap⟩
  have htail : (T.drop k).take (T.length - k) = T.drop k := by
    apply List.take_of_length_le
    rw [List.length_drop]
  have hlast : k + (T.drop k).length = T.length := by
    rw [List.length_drop]
    lia
  rcases h.followerLog.appendNew h.leaderLog.numbered h.agrees h.committed htake hlen hsnap hk
    (Nat.le_refl _) with ⟨mid, F', hmid, hview, hbase, hcommitted, _, hF'⟩
  rw [htail] at hmid
  have hpre : T <+: F' := by
    rw [List.take_length] at hF'
    rcases hF' with ⟨hpre, rfl⟩ | ⟨_, rfl⟩
    · exact hpre
    · exact List.prefix_refl _
  have hle := hpre.length_le
  rcases hview.commitTo (i := min commit T.length) (by lia) with
    ⟨log, hlog, hview', hmax, _, hbase'⟩
  refine ⟨log, F', ?_, hview', hpre, hbase'.trans hbase, ?_⟩
  · rw [RaftLog.maybeAppend, if_pos hterm, hlast]
    exact bind_eq_ok.mpr ⟨mid, hmid, bind_eq_ok.mpr ⟨log, hlog, rfl⟩⟩
  · rw [hmax, hcommitted]
    exact Nat.le_max_left _ _

theorem CatchUp.agreement (h : CatchUp leader follower T F) {log : RaftLog} {F' : List Entry}
    (hview : View log F') (hpre : T <+: F')
    (hsnap : log.snapIndex = follower.log.snapIndex) :
    leader.log.lastIndex ≤ log.lastIndex ∧
      (forall i, log.snapIndex < i -> i ≤ leader.log.lastIndex ->
        log.entryAt i = leader.log.entryAt i) ∧
      leader.log.term log.snapIndex = some log.snapTerm := by
  have hzero := h.uncompacted
  rcases h.term_snapIndex with ⟨hsnapT, hsnapTerm⟩
  rw [← hsnap] at hsnapT
  rw [h.leaderLog.lastIndex, hview.lastIndex]
  refine ⟨hpre.length_le, ?_, ?_⟩
  · intro i hlo hhi
    cases i with
    | zero => lia
    | succ j =>
        rw [hview.entryAt (by lia), h.leaderLog.entryAt (by lia)]
        rcases hpre with ⟨rest, rfl⟩
        exact List.getElem?_append_left (by lia)
  · rw [h.leaderLog.term_inside (by lia) hsnapT, hview.snapTerm_eq,
      termAt_of_pre Entry.term hpre hsnapT]

/-!
## From the snapshot on
-/

theorem CatchUp.refused (h : CatchUp leader follower T F) {k : Nat}
    (hnext : leader.nextIndex follower.id = some (k + 1)) (hk : k ≤ T.length)
    (hterm : follower.log.term k ≠ some (termAt Entry.term T k)) :
    exists leader' follower', CatchUp leader' follower' T F ∧
      follower'.log = follower.log ∧ leader'.log = leader.log ∧
      leader'.nextIndex follower'.id =
        some (max (min k (follower.log.lastIndex + 1)) 1 - 1 + 1) ∧
      forall fuel, converse (fuel + 1) leader follower (leader.probe T k follower.id) =
        converse fuel leader' follower' (leader'.probe T
          (max (min k (follower.log.lastIndex + 1)) 1 - 1) follower'.id) := by
  let hint := min k (follower.log.lastIndex + 1)
  have hprobe : (leader.probe T k follower.id).logIndex = k ∧
      (leader.probe T k follower.id).logTerm = termAt Entry.term T k := by
    rw [Node.probe, stamp_eq]
    exact ⟨rfl, rfl⟩
  have hrefused : follower.log.term (leader.probe T k follower.id).logIndex ≠
      some (leader.probe T k follower.id).logTerm := by
    rw [hprobe.left, hprobe.right]
    exact hterm
  rcases Node.handleApp_refuses hrefused with ⟨follower', hok, hcore⟩
  rw [hprobe.left] at hcore
  have hlast := getLast?_msgs_of_say hcore
  rw [stamp_eq] at hlast
  have hid : follower'.id = follower.id := congrArg Core.id hcore
  have hpos : max hint 1 - 1 + 1 = max hint 1 := by lia
  have hupdate : Function.update leader.nextIndex follower.id (some (max hint 1)) follower.id =
      some (max hint 1 - 1 + 1) := by
    rw [Function.update_self, hpos]
  let moved : Node :=
    { leader with
      nextIndex := Function.update leader.nextIndex follower.id (some (max hint 1)) }
  have hsend : moved.sendAppend follower.id = .ok { moved with
      msgs := moved.msgs ++ [moved.probe T (max hint 1 - 1) follower.id] } := by
    have hview : View moved.log T := h.leaderLog
    have hzero : moved.log.snapIndex = 0 := h.uncompacted
    exact Node.sendAppend_probe hview hzero hupdate (by lia)
  refine ⟨{ moved with
    msgs := moved.msgs ++ [moved.probe T (max hint 1 - 1) follower.id] }, follower', ?_,
    congrArg Core.log hcore, rfl, ?_, ?_⟩
  · exact h.congr rfl rfl rfl (congrArg Core.term hcore) (congrArg Core.log hcore)
  · rw [hid]
    exact hupdate
  · intro fuel
    rw [converse, hok]
    show (match follower'.msgs.getLast? with
      | none => pure none
      | some answer => _) = _
    rw [hlast]
    show (Node.handleAppResp leader _ >>= _) = _
    rw [Node.handleAppResp_refused h.leads rfl hnext (show hint < k + 1 by lia)]
    show (moved.sendAppend follower.id >>= _) = _
    rw [hsend, hid]
    show (match (moved.msgs ++ [moved.probe T (max hint 1 - 1) follower.id]).getLast? with
      | none => pure none
      | some request => _) = _
    rw [List.getLast?_concat]
    rfl

theorem CatchUp.stuck (h : CatchUp leader follower T F) {k : Nat}
    (hnext : leader.nextIndex follower.id = some (k + 1)) (hk : k < follower.log.snapIndex)
    (fuel : Nat) :
    converse fuel leader follower (leader.probe T k follower.id) = .ok none := by
  induction fuel generalizing leader follower k with
  | zero => rfl
  | succ fuel ih =>
      have hbound := h.term_snapIndex.left
      have hlast := follower.log.lastIndex_eq
      have hterm : follower.log.term k ≠ some (termAt Entry.term T k) := by
        intro hterm
        have hge := (RaftLog.term_bounds hterm).left
        lia
      rcases h.refused hnext (by lia) hterm with
        ⟨leader', follower', h', hlog, _, hnext', hstep⟩
      rw [hstep]
      apply ih h' hnext'
      rw [hlog]
      lia

theorem CatchUp.converges (h : CatchUp leader follower T F) {k : Nat}
    (hnext : leader.nextIndex follower.id = some (k + 1)) (hk : k ≤ T.length)
    (hsnap : follower.log.snapIndex ≤ k) :
    exists fuel follower' F', converse fuel leader follower (leader.probe T k follower.id) =
        .ok (some follower') ∧
      View follower'.log F' ∧ T <+: F' ∧
      follower'.log.snapIndex = follower.log.snapIndex ∧
      follower.log.committed ≤ follower'.log.committed := by
  induction k using Nat.strong_induction_on generalizing leader follower with
  | _ k ih =>
      by_cases hterm : follower.log.term k = some (termAt Entry.term T k)
      · have hcommit : min leader.log.committed T.length ≤ T.length := Nat.min_le_right _ _
        rcases h.accepts hk hterm hcommit with ⟨log, F', happend, hview, hpre, hbase, hcommitted⟩
        have hrequest : follower.log.maybeAppend (leader.probe T k follower.id).logIndex
            (leader.probe T k follower.id).logTerm (leader.probe T k follower.id).commit
            (leader.probe T k follower.id).entries = .ok (some T.length, log) := by
          rw [Node.probe, stamp_eq]
          exact happend
        rcases Node.handleApp_accepts hrequest with ⟨follower', hok, hcore⟩
        have hlast := getLast?_msgs_of_say hcore
        rw [stamp_eq] at hlast
        have hlog : follower'.log = log := congrArg Core.log hcore
        refine ⟨1, follower', F', ?_, ?_⟩
        · rw [converse, hok]
          show (match follower'.msgs.getLast? with
            | none => pure none
            | some answer => _) = _
          rw [hlast]
          rfl
        · rw [hlog]
          exact ⟨hview, hpre, hbase, hcommitted⟩
      · -- At the boundary the terms agree, so the probe is above it.
        have hne : k ≠ follower.log.snapIndex := by
          intro heq
          apply hterm
          rw [heq, RaftLog.term, if_pos rfl, h.term_snapIndex.right]
        have hlast := follower.log.lastIndex_eq
        rcases h.refused hnext hk hterm with ⟨leader', follower', h', hlog, _, hnext', hstep⟩
        have hsnap' : follower'.log.snapIndex ≤
            max (min k (follower.log.lastIndex + 1)) 1 - 1 := by
          rw [hlog]
          lia
        rcases ih _ (by lia) h' hnext' (by lia) hsnap' with ⟨fuel, last, F', hrun, hresult⟩
        rw [hlog] at hresult
        exact ⟨fuel + 1, last, F', (hstep fuel).trans hrun, hresult⟩

theorem CatchUp.starts (h : CatchUp leader follower T F) {k : Nat}
    (hnext : leader.nextIndex follower.id = some (k + 1)) (hk : k ≤ T.length) :
    exists sent : Node, CatchUp sent follower T F ∧
      sent.nextIndex follower.id = some (k + 1) ∧
      forall fuel, backtrack fuel leader follower =
        converse fuel sent follower (sent.probe T k follower.id) := by
  have hsend : leader.sendAppend follower.id =
      .ok { leader with msgs := leader.msgs ++ [leader.probe T k follower.id] } :=
    Node.sendAppend_probe h.leaderLog h.uncompacted hnext hk
  refine ⟨{ leader with msgs := leader.msgs ++ [leader.probe T k follower.id] },
    h.congr rfl rfl rfl rfl rfl, hnext, ?_⟩
  intro fuel
  rw [backtrack, hsend]
  show (match (leader.msgs ++ [leader.probe T k follower.id]).getLast? with
    | none => pure none
    | some request => _) = _
  rw [List.getLast?_concat]
  rfl

theorem CatchUp.not_converges (h : CatchUp leader follower T F) {k : Nat}
    (hnext : leader.nextIndex follower.id = some (k + 1)) (hk : k ≤ T.length)
    (hlow : k < follower.log.snapIndex) : ¬ Converges leader follower := by
  rcases h.starts hnext hk with ⟨sent, hsent, hnext', hrun⟩
  rintro ⟨fuel, follower', hfuel, _⟩
  rw [hrun, hsent.stuck hnext' hlow fuel] at hfuel
  cases hfuel

/-- The exchanges come to an end exactly when the first probe is not below the
follower's snapshot. -/
theorem converges_iff_snapIndex_lt (h : CatchUp leader follower T F) {next : Nat}
    (hnext : leader.nextIndex follower.id = some next) (hpos : 1 ≤ next)
    (hle : next ≤ leader.log.lastIndex + 1) :
    Converges leader follower <-> follower.log.snapIndex < next := by
  rw [h.leaderLog.lastIndex] at hle
  rcases Nat.exists_eq_add_of_le' hpos with ⟨k, rfl⟩
  have hk : k ≤ T.length := by lia
  constructor
  · intro hconverges
    by_contra hlow
    exact h.not_converges hnext hk (by lia) hconverges
  · intro hsnap
    rcases h.starts hnext hk with ⟨sent, hsent, hnext', hrun⟩
    rcases hsent.converges hnext' hk (by lia) with
      ⟨fuel, follower', F', hfuel, hview, hpre, hbase, hcommitted⟩
    rcases h.agreement hview hpre hbase with ⟨hlast, hentries, hboundary⟩
    exact ⟨fuel, follower', (hrun fuel).trans hfuel, hlast, hentries, hboundary, hcommitted⟩

end CatchUp

/-!
## A follower with a snapshot
-/

def leaderEntries : List Entry :=
  [{ index := 1, term := 1 }, { index := 2, term := 1 }, { index := 3, term := 3 }]

/-- The second entry is of a leader that lost it. -/
def followerEntries : List Entry :=
  [{ index := 1, term := 1 }, { index := 2, term := 2 }]

def leaderAt (next : Nat) : Node where
  id := 1
  role := .leader
  term := 3
  voters := [1, 2, 3]
  log := { newLog with entries := leaderEntries, committed_le := by decide }
  nextIndex := fun _ => some next

def lagging : Node where
  id := 2
  term := 3
  voters := [1, 2, 3]
  log := { snapshotLog 1 1 with entries := followerEntries.drop 1, committed_le := by decide }

theorem numbered_leaderEntries : Numbered leaderEntries := by
  intro k e hk
  match k with
  | 0 | 1 | 2 =>
      cases hk
      rfl
  | _ + 3 => cases hk

theorem catchUp_lagging (next : Nat) :
    CatchUp (leaderAt next) lagging leaderEntries followerEntries where
  leads := rfl
  sameTerm := rfl
  uncompacted := rfl
  leaderLog := ⟨Nat.zero_le _, rfl, rfl, numbered_leaderEntries⟩
  followerLog := by
    refine ⟨by decide, rfl, rfl, ?_⟩
    intro k e hk
    match k with
    | 0 | 1 =>
        cases hk
        rfl
    | _ + 2 => cases hk
  agrees := by
    intro k e d he hd hterm
    match k with
    | 0 => rfl
    | 1 =>
        cases he
        cases hd
        cases hterm
    | _ + 2 => cases he
  committed := by decide

theorem converges_lagging : Converges (leaderAt 4) lagging :=
  (converges_iff_snapIndex_lt (catchUp_lagging 4) rfl (by decide) (by decide)).mpr (by decide)

/-- A probe from the first entry is refused for ever. -/
theorem not_converges_lagging :
    CatchUp (leaderAt 1) lagging leaderEntries followerEntries ∧
      (leaderAt 1).nextIndex lagging.id = some 1 ∧ ¬ Converges (leaderAt 1) lagging :=
  ⟨catchUp_lagging 1, rfl,
    (catchUp_lagging 1).not_converges (k := 0) rfl (by decide) (by decide)⟩

end Raft
end Basalt
