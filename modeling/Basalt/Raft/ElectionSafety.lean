import Basalt.Lib.Election
import Basalt.Raft.Cluster
import Basalt.Raft.Operations
import Basalt.Raft.PersistedPrefix

/-!
# Elections across crashes

A cluster whose nodes crash and restart from their state files.  The file of a
node is represented by what a replay of it yields; a batch is saved before its
messages are sent, and a crash may come before the save, right after it, or
between two operations.

The nodes are related to the voters of `Lib.Election`: a vote that is in memory
only is staged there, and the save of a batch is the save of a voter.
-/

namespace Basalt
namespace Raft

open Lib Relation

/-!
## State files
-/

namespace Recovered

def truncateFor (rec : Recovered) (index : Nat) : Except StorageError Recovered :=
  if index ≤ rec.snapIndex + rec.entries.length then applyTruncate rec index
  else pure rec

def saveEntries (rec : Recovered) : List Entry -> Except StorageError Recovered
  | [] => pure rec
  | e :: es => do
      let rec <- rec.truncateFor e.index
      (e :: es).foldlM applyEntry rec

/-- A replay, after the records of a `SaveReady` were appended to the file. -/
def saveReady (rec : Recovered) (rd : Ready) : Except StorageError Recovered := do
  let rec <- rec.saveEntries rd.entries
  pure { rec with hardState := rd.hardState.getD rec.hardState }

end Recovered

/-- Nodes with their state files.  A file that a replay would reject is kept as
the error; its node does not come back from a crash. -/
structure DurableCluster where
  cluster : Cluster
  files : Nat -> Except StorageError Recovered := fun _ => .ok {}

inductive CrashAction where
  | act (a : Action)
  /-- A node crashes and is restored with its state machine at `applied`.  It
  may have saved and sent a last batch that it did not acknowledge. -/
  | crash (id applied : Nat) (saves : Bool)
deriving DecidableEq, Repr

inductive CrashError where
  | panic (p : Panic)
  | storage (e : StorageError)
deriving DecidableEq, Repr

namespace DurableCluster

def saveAndSend (g : DurableCluster) (id : Nat) :
    Except Panic (Ready × DurableCluster) := do
  let (rd, n) <- (g.cluster.nodes id).ready
  pure
    (rd,
      { cluster :=
          { g.cluster.setNode id n with
            network := g.cluster.network ++ rd.messages }
        files := Function.update g.files id
          (g.files id >>= fun rec => rec.saveReady rd) })

def drain (g : DurableCluster) (id : Nat) : Except Panic DurableCluster := do
  let (rd, g) <- g.saveAndSend id
  let n <- (g.cluster.nodes id).advance rd
  pure { g with cluster := g.cluster.setNode id n }

def compact (g : DurableCluster) (id index : Nat) : Except Panic DurableCluster := do
  let n <- (g.cluster.nodes id).compactTo index
  let ents <- n.entries
  pure
    { cluster := g.cluster.setNode id n
      files := Function.update g.files id
        (.ok
          { hardState := n.hardState
            snapIndex := n.log.snapIndex
            snapTerm := n.log.snapTerm
            entries := ents }) }

def restart (cfg : ClusterConfig) (g : DurableCluster) (id applied : Nat) :
    Except CrashError DurableCluster := do
  let rec <- (g.files id).mapError .storage
  let n <- (Node.restoreNode (cfg.config id) rec applied).mapError .panic
  pure { g with cluster := g.cluster.setNode id n }

def exec (cfg : ClusterConfig) (g : DurableCluster) :
    CrashAction -> Except CrashError DurableCluster
  | .act (.ready id) => (g.drain id).mapError .panic
  | .act (.compactTo id index) => (g.compact id index).mapError .panic
  | .act a => do
      let cl <- (g.cluster.exec a).mapError .panic
      pure { g with cluster := cl }
  | .crash id applied false => g.restart cfg id applied
  | .crash id applied true => do
      let (_, g) <- (g.saveAndSend id).mapError .panic
      g.restart cfg id applied

def Allowed (cfg : ClusterConfig) (g : DurableCluster) : CrashAction -> Prop
  | .act a => cfg.Allowed g.cluster a
  | .crash id _ _ => id ∈ cfg.voters

instance (cfg : ClusterConfig) (g : DurableCluster) (a : CrashAction) :
    Decidable (g.Allowed cfg a) :=
  match a with
  | .act a => inferInstanceAs (Decidable (cfg.Allowed g.cluster a))
  | .crash id _ _ => inferInstanceAs (Decidable (id ∈ cfg.voters))

def Initial (cfg : ClusterConfig) (g : DurableCluster) : Prop :=
  cfg.Initial g.cluster ∧ forall id, g.files id = .ok {}

def Granted (g : DurableCluster) (v t c : Nat) : Prop :=
  exists m, m ∈ g.cluster.network ∧ m.type = .voteResp ∧ m.reject = false ∧
    m.fromId = v ∧ m.term = t ∧ m.toId = c

instance (g : DurableCluster) (v t c : Nat) : Decidable (g.Granted v t c) :=
  inferInstanceAs (Decidable (exists m, m ∈ g.cluster.network ∧ m.type = .voteResp ∧
    m.reject = false ∧ m.fromId = v ∧ m.term = t ∧ m.toId = c))

def Leads (g : DurableCluster) (i t : Nat) : Prop :=
  (g.cluster.nodes i).role = .leader ∧ (g.cluster.nodes i).term = t

instance (g : DurableCluster) (i t : Nat) : Decidable (g.Leads i t) :=
  inferInstanceAs (Decidable
    ((g.cluster.nodes i).role = .leader ∧ (g.cluster.nodes i).term = t))

end DurableCluster

/-!
## The order of votes

The term and the vote of a node only move forward: a vote stays for the rest of
its term.
-/

/-- A term with a vote in it; zero is no vote. -/
abbrev Ballot := Nat × Nat

def Ballot.Before (a b : Ballot) : Prop :=
  a.1 < b.1 ∨ (a.1 = b.1 ∧ (a.2 = 0 ∨ a.2 = b.2))

namespace Ballot.Before

variable {a b c : Ballot}

theorem refl (a : Ballot) : a.Before a :=
  Or.inr ⟨rfl, Or.inr rfl⟩

theorem trans (h : a.Before b) (h' : b.Before c) : a.Before c := by
  unfold Ballot.Before at *
  lia

theorem antisymm (h : a.Before b) (h' : b.Before a) : a = b := by
  unfold Ballot.Before at *
  apply Prod.ext
  · lia
  · lia

end Ballot.Before

def Core.ballot (c : Core) : Ballot :=
  (c.term, c.vote)

def HardState.ballot (hs : HardState) : Ballot :=
  (hs.term, hs.vote)

theorem Move.ballot {inp : Input} {c c' : Core} (h : Move inp c c') :
    c.ballot.Before c'.ballot := by
  cases h with
  | adopt hlt => exact Or.inl hlt
  | campaign => exact Or.inl (Nat.lt_succ_self _)
  | grant _ _ _ hvote _ => exact Or.inr ⟨rfl, hvote⟩
  | _ => exact Ballot.Before.refl _

theorem Move.prevHard {inp : Input} {c c' : Core} (h : Move inp c c') :
    c'.prevHard = c.prevHard := by
  cases h with
  | _ => rfl

/-!
## Nodes as voters
-/

abbrev Ballots := Election.State Nat

def voteOf (v : Nat) : Option Nat :=
  if v = 0 then none else some v

theorem voteOf_of_ne {v : Nat} (h : v ≠ 0) : voteOf v = some v :=
  if_neg h

/-- What a message may tell: that its sender has voted, and commands. -/
def Told (voters : Finset Nat) (voted : Nat -> Nat -> Nat -> Prop)
    (m : Message) : Prop :=
  m.fromId ∈ voters ∧
    match m.type with
    | .vote => voted m.fromId m.term m.fromId
    | .voteResp => m.reject = false -> voted m.fromId m.term m.toId
    | .app => forall e, e ∈ m.entries -> e.type = .normal
    | _ => True

def Known (cast : Nat -> Nat -> Nat -> Prop) (i : Nat) (x : Election.Voter Nat)
    (v t c : Nat) : Prop :=
  cast v t c ∨ (v = i ∧ x.staged t c)

structure NodeVotes (voters : Finset Nat) (s : Ballots) (i : Nat)
    (x : Election.Voter Nat) (c : Core) (file : Except StorageError Recovered) :
    Prop where
  id_eq : c.id = i
  voters_nodup : c.voters.Nodup
  voters_eq : c.voters.toFinset = voters
  term_eq : x.term = c.term
  vote_eq : x.vote = voteOf c.vote
  tally_eq : x.tally = c.votes
  tally_sub : c.votes ⊆ voters
  leads : c.role = .leader -> s.led i c.term
  plain : forall e, e ∈ c.log.entries -> e.type = .normal
  told : forall m, m ∈ c.msgs -> Told voters (Known s.cast i x) m
  prevHard : c.prevHard.ballot.Before c.ballot
  file_plain : forall {rec}, file = .ok rec ->
    forall e, e ∈ rec.entries -> e.type = .normal
  file_ballot : forall {rec}, file = .ok rec ->
    x.savedTerm = rec.hardState.term ∧ x.savedVote = voteOf rec.hardState.vote
  /-- What the node believes to be saved is saved. -/
  file_current : forall {rec}, file = .ok rec -> c.prevHard.ballot = c.ballot ->
    rec.hardState.ballot = c.ballot

def InputTold (voters : Finset Nat) (s : Ballots) (i : Nat) (inp : Input) : Prop :=
  forall {m}, inp.message = some m ->
    m.type = .prop ∨ (m.toId = i ∧ Told voters s.cast m)

section

variable {voters : Finset Nat} {s s' : Ballots} {i : Nat} {x x' : Election.Voter Nat}
variable {c c' : Core} {inp : Input} {m : Message}
variable {file : Except StorageError Recovered} {rec : Recovered}

theorem Told.mono {voted voted' : Nat -> Nat -> Nat -> Prop} {m : Message}
    (h : Told voters voted m) (hmono : forall {v t c}, voted v t c -> voted' v t c) :
    Told voters voted' m := by
  refine ⟨h.left, ?_⟩
  have h := h.right
  cases htype : m.type with
  | vote =>
      simp only [htype] at h ⊢
      exact hmono h
  | voteResp =>
      simp only [htype] at h ⊢
      exact fun hr => hmono (h hr)
  | app =>
      simp only [htype] at h ⊢
      exact h
  | _ => exact True.intro

theorem Told.of_quiet {voted : Nat -> Nat -> Nat -> Prop} {m : Message}
    (hfrom : m.fromId ∈ voters) (hvote : m.type ≠ .vote)
    (hresp : m.type = .voteResp -> m.reject = true) (happ : m.type ≠ .app) :
    Told voters voted m := by
  refine ⟨hfrom, ?_⟩
  cases htype : m.type with
  | vote => exact absurd htype hvote
  | voteResp =>
      intro hr
      rw [hresp htype] at hr
      cases hr
  | app => exact absurd htype happ
  | _ => exact True.intro

theorem Told.of_notice {voted : Nat -> Nat -> Nat -> Prop} {m : Message}
    (hfrom : m.fromId ∈ voters) (h : m.IsNotice) : Told voters voted m := by
  rcases h with h | h | h | ⟨h, hr⟩
  · exact Told.of_quiet hfrom (by simp [h]) (by simp [h]) (by simp [h])
  · exact Told.of_quiet hfrom (by simp [h]) (by simp [h]) (by simp [h])
  · exact Told.of_quiet hfrom (by simp [h]) (by simp [h]) (by simp [h])
  · exact Told.of_quiet hfrom (by simp [h]) (fun _ => hr) (by simp [h])

theorem InputTold.grows (h : InputTold voters s i inp) (hgrows : Election.Grows s s') :
    InputTold voters s' i inp := by
  intro m hm
  rcases h hm with hprop | ⟨hto, htold⟩
  · exact Or.inl hprop
  · exact Or.inr ⟨hto, htold.mono hgrows.cast⟩

theorem InputTold.none : InputTold voters s i {} := by
  intro m hm
  cases hm

theorem InputTold.message (h : InputTold voters s i inp) (hm : inp.message = some m)
    (htype : m.type ≠ .prop) : m.toId = i ∧ Told voters s.cast m :=
  (h hm).resolve_left htype

namespace NodeVotes

theorem forward (h : NodeVotes voters s i x c file) (hmove : Move inp c c')
    {rec : Recovered} (hrec : file = .ok rec)
    (hprev : c'.prevHard.ballot = c'.ballot) : rec.hardState.ballot = c'.ballot := by
  rw [hmove.prevHard] at hprev
  have hback : c'.ballot.Before c.ballot := by
    rw [← hprev]
    exact h.prevHard
  have hsame := hmove.ballot.antisymm hback
  rw [h.file_current hrec (hprev.trans hsame.symm)]
  exact hsame

theorem speaks (h : NodeVotes voters s i x c file)
    (hm : Told voters (Known s.cast i x) (c.stamp m)) :
    NodeVotes voters s i x (c.say m) file := by
  refine { h with told := ?_ }
  intro m' hm'
  rcases List.mem_append.mp hm' with hm' | hm'
  · exact h.told m' hm'
  · rw [List.mem_singleton.mp hm']
    exact hm

theorem speaks_quiet (h : NodeVotes voters s i x c file) (hi : i ∈ voters)
    (hvote : m.type ≠ .vote) (hresp : m.type ≠ .voteResp) (happ : m.type ≠ .app) :
    NodeVotes voters s i x (c.say m) file := by
  apply h.speaks
  apply Told.of_quiet
  · rw [Node.stamp_fromId, h.id_eq]
    exact hi
  · rw [Node.stamp_type]
    exact hvote
  · rw [Node.stamp_type]
    exact fun heq => absurd heq hresp
  · rw [Node.stamp_type]
    exact happ

theorem setLog (h : NodeVotes voters s i x c file) {log : RaftLog}
    (hplain : forall e, e ∈ log.entries -> e.type = .normal) :
    NodeVotes voters s i x { c with log := log } file :=
  { h with plain := hplain }

theorem exists_set (hstep : Election.Step voters i s (s.set i x'))
    (h : NodeVotes voters s i x' c' file) :
    exists s', Election.Steps voters i s s' ∧
      NodeVotes voters s' i (s'.voter i) c' file := by
  refine ⟨s.set i x', ReflTransGen.single hstep, ?_⟩
  rw [Election.State.set_voter]
  exact { h with }

theorem move (h : NodeVotes voters s i (s.voter i) c file) (hi : i ∈ voters)
    (hzero : 0 ∉ voters) (hinp : InputTold voters s i inp) (hmove : Move inp c c') :
    exists s', Election.Steps voters i s s' ∧
      NodeVotes voters s' i (s'.voter i) c' file := by
  have hne : i ≠ 0 := fun heq => hzero (heq ▸ hi)
  have hstay : NodeVotes voters s i (s.voter i) c' file ->
      exists s', Election.Steps voters i s s' ∧
        NodeVotes voters s' i (s'.voter i) c' file :=
    fun h' => ⟨s, ReflTransGen.refl, h'⟩
  have hbefore := h.prevHard.trans hmove.ballot
  have hforward : forall {rec}, file = .ok rec -> c'.prevHard.ballot = c'.ballot ->
      rec.hardState.ballot = c'.ballot :=
    fun hrec hprev => h.forward hmove hrec hprev
  cases hmove with
  | adopt hlt =>
      rw [← h.term_eq] at hlt
      refine exists_set (Election.Step.adopt hlt) ?_
      exact { h with
        term_eq := rfl
        vote_eq := rfl
        tally_eq := rfl
        tally_sub := Finset.empty_subset _
        leads := fun hr => by cases hr
        prevHard := hbefore
        file_current := hforward }
  | campaign hrole hms =>
      refine exists_set Election.Step.campaign ?_
      exact { h with
        term_eq := congrArg Nat.succ h.term_eq
        vote_eq := by
          change some i = voteOf c.id
          rw [h.id_eq, voteOf_of_ne hne]
        tally_eq := by
          change {i} = ({c.id} : Finset Nat)
          rw [h.id_eq]
        tally_sub := by
          rw [h.id_eq]
          exact Finset.singleton_subset_iff.mpr hi
        leads := fun hr => by cases hr
        told := by
          intro m hm
          rcases List.mem_append.mp hm with hm | hm
          · exact (h.told m hm).mono fun hv => hv.imp_right (And.imp_right Or.inl)
          · rcases hms m hm with ⟨target, lastTerm, _, _, rfl⟩
            refine ⟨?_, Or.inr ⟨?_, Or.inr ⟨?_, ?_⟩⟩⟩
            · rw [Core.voteRequest, h.id_eq]
              exact hi
            · exact h.id_eq
            · exact (congrArg Nat.succ h.term_eq).symm
            · exact h.id_eq
        prevHard := hbefore
        file_current := hforward }
  | grant hm htype hterm hvote hup =>
      rename_i m
      have htold := (hinp.message hm (by simp [htype])).right
      have hfrom : m.fromId ≠ 0 := fun heq => hzero (heq ▸ htold.left)
      have hasked : s.cast m.fromId (s.voter i).term m.fromId := by
        have hright := htold.right
        simp only [htype] at hright
        rw [h.term_eq, ← hterm]
        exact hright
      have hfree : (s.voter i).vote = none ∨ (s.voter i).vote = some m.fromId := by
        rw [h.vote_eq]
        rcases hvote with hnone | hsame
        · rw [hnone]
          exact Or.inl rfl
        · rw [hsame]
          exact Or.inr (voteOf_of_ne hfrom)
      refine exists_set (Election.Step.grant hasked hfree) ?_
      exact { h with
        vote_eq := (voteOf_of_ne hfrom).symm
        told := by
          intro m' hm'
          rcases List.mem_append.mp hm' with hm' | hm'
          · exact (h.told m' hm').mono fun hv => hv.imp_right (And.imp_right Or.inl)
          · rw [List.mem_singleton.mp hm']
            refine ⟨h.id_eq ▸ hi, fun _ => Or.inr ⟨h.id_eq, Or.inr ⟨?_, rfl⟩⟩⟩
            exact h.term_eq.symm
        prevHard := hbefore
        file_current := hforward }
  | tally hm htype hterm hrole hreject hmem =>
      rename_i m
      rcases hinp.message hm (by simp [htype]) with ⟨hto, hfrom, htold⟩
      simp only [htype] at htold
      have hcast : s.cast m.fromId (s.voter i).term i := by
        rw [h.term_eq, ← hterm, ← hto]
        exact htold hreject
      refine exists_set (Election.Step.count hcast) ?_
      exact { h with
        tally_eq := congrArg (insert m.fromId) h.tally_eq
        tally_sub := Finset.insert_subset hfrom h.tally_sub }
  | lead hrole hquorum =>
      have hled : IsQuorum voters (s.voter i).tally := by
        rw [h.tally_eq]
        refine ⟨h.tally_sub, ?_⟩
        rw [← h.voters_eq, List.toFinset_card_of_nodup h.voters_nodup]
        exact hquorum
      refine ⟨_, ReflTransGen.single (Election.Step.lead hi hled), ?_⟩
      exact { h with leads := fun _ => Or.inr ⟨rfl, h.term_eq.symm⟩ }
  | preCampaign | follow =>
      exact hstay { h with leads := fun hr => by cases hr }
  | notice hms =>
      apply hstay
      refine { h with told := ?_ }
      intro m hm
      rcases List.mem_append.mp hm with hm | hm
      · exact h.told m hm
      · rcases hms m hm with ⟨hnotice, hfrom⟩
        rw [h.id_eq] at hfrom
        exact Told.of_notice (hfrom ▸ hi) hnotice
  | append hrole happends hlog =>
      refine hstay (h.setLog ?_)
      intro e he
      rw [(RaftLog.append_entries hlog).left] at he
      rcases List.mem_append.mp he with he | he
      · exact h.plain e he
      · rcases List.getElem?_of_mem he with ⟨k, hk⟩
        exact (happends k e hk).right.right.left
  | commit hrole hquorum hterm hlog =>
      refine hstay (h.setLog ?_)
      intro e he
      rw [RaftLog.commitTo_entries hlog] at he
      exact h.plain e he
  | accept hm htype hterm hrole happ =>
      rename_i m lastNew log
      have htold := (hinp.message hm (by simp [htype])).right
      have hents : forall e, e ∈ m.entries -> e.type = .normal := by
        have hright := htold.right
        simp only [htype] at hright
        exact hright
      have hlog : NodeVotes voters s i (s.voter i) { c with log := log } file := by
        refine h.setLog ?_
        intro e he
        rcases RaftLog.maybeAppend_some happ with ⟨_, _, mid, hmid, hcommit⟩
        rw [RaftLog.commitTo_entries hcommit] at he
        exact (RaftLog.mem_appendNew hmid he).elim (h.plain e) (hents e)
      exact hstay (hlog.speaks_quiet hi (by simp) (by simp) (by simp))
  | refuse | timeoutNow => exact hstay (h.speaks_quiet hi (by simp) (by simp) (by simp))
  | sendApp hrole hto hnext hterm hslice =>
      refine hstay (h.speaks ⟨?_, ?_⟩)
      · rw [Node.stamp_fromId, h.id_eq]
        exact hi
      · exact fun e he => h.plain e (RaftLog.mem_of_slice hslice he)
  | _ => exact hstay { h with }

theorem moves (h : NodeVotes voters s i (s.voter i) c file) (hi : i ∈ voters)
    (hzero : 0 ∉ voters) (hinp : InputTold voters s i inp) (hmoves : Moves inp c c') :
    exists s', Election.Steps voters i s s' ∧
      NodeVotes voters s' i (s'.voter i) c' file := by
  induction hmoves with
  | refl => exact ⟨s, ReflTransGen.refl, h⟩
  | tail _ hlast ih =>
      rcases ih with ⟨s1, hsteps, h1⟩
      have hinp1 : InputTold voters s1 i inp := hinp.grows (Election.Steps.grows hsteps)
      rcases h1.move hi hzero hinp1 hlast with ⟨s2, hsteps', h2⟩
      exact ⟨s2, hsteps.trans hsteps', h2⟩

theorem grows (h : NodeVotes voters s i (s.voter i) c file)
    (hgrows : Election.Grows s s') (hvoter : s'.voter i = s.voter i) :
    NodeVotes voters s' i (s'.voter i) c file := by
  rw [hvoter]
  exact { h with
    leads := fun hr => hgrows.led (h.leads hr)
    told := fun m hm => (h.told m hm).mono fun hv => hv.imp_left hgrows.cast }

end NodeVotes

/-!
## Saving and restoring
-/

theorem applyEntry_spec {rec rec' : Recovered} {e : Entry}
    (h : applyEntry rec e = .ok rec') :
    rec'.hardState = rec.hardState ∧ rec'.snapIndex = rec.snapIndex ∧
      forall d, d ∈ rec'.entries -> d ∈ rec.entries ∨ d = e := by
  rw [applyEntry] at h
  split at h
  · cases h
  · dsimp only at h
    split at h
    · cases h
      refine ⟨rfl, rfl, fun d hd => ?_⟩
      rcases List.mem_append.mp hd with hd | hd
      · exact Or.inl (List.mem_of_mem_take hd)
      · exact Or.inr (List.mem_singleton.mp hd)
    · split at h
      · cases h
        refine ⟨rfl, rfl, fun d hd => ?_⟩
        rcases List.mem_append.mp hd with hd | hd
        · exact Or.inl hd
        · exact Or.inr (List.mem_singleton.mp hd)
      · cases h

theorem applyTruncate_spec {rec rec' : Recovered} {index : Nat}
    (h : applyTruncate rec index = .ok rec') :
    rec'.hardState = rec.hardState ∧ rec'.snapIndex = rec.snapIndex ∧
      forall d, d ∈ rec'.entries -> d ∈ rec.entries := by
  rw [applyTruncate] at h
  split at h
  · cases h
  · dsimp only at h
    split at h
    · cases h
      exact ⟨rfl, rfl, fun d hd => List.mem_of_mem_take hd⟩
    · split at h
      · cases h
      · cases h
        exact ⟨rfl, rfl, fun d hd => hd⟩

theorem Recovered.saveEntries_spec {rec rec' : Recovered} {ents : List Entry}
    (h : rec.saveEntries ents = .ok rec') :
    rec'.hardState = rec.hardState ∧ rec'.snapIndex = rec.snapIndex ∧
      forall d, d ∈ rec'.entries -> d ∈ rec.entries ∨ d ∈ ents := by
  cases ents with
  | nil =>
      cases h
      exact ⟨rfl, rfl, fun d hd => Or.inl hd⟩
  | cons e es =>
      rcases bind_eq_ok.mp h with ⟨cut, hcut, hfold⟩
      have hkeep : cut.hardState = rec.hardState ∧ cut.snapIndex = rec.snapIndex ∧
          forall d, d ∈ cut.entries -> d ∈ rec.entries := by
        rw [truncateFor] at hcut
        split at hcut
        · exact applyTruncate_spec hcut
        · cases hcut
          exact ⟨rfl, rfl, fun d hd => hd⟩
      refine foldlM_invariant
        (P := fun r => r.hardState = rec.hardState ∧ r.snapIndex = rec.snapIndex ∧
          forall d, d ∈ r.entries -> d ∈ rec.entries ∨ d ∈ e :: es) ?_
        ⟨hkeep.left, hkeep.right.left, fun d hd => Or.inl (hkeep.right.right d hd)⟩ hfold
      rintro r a r' ha ⟨hrhard, hrsnap, hrmem⟩ happly
      rcases applyEntry_spec happly with ⟨hhard, hsnap, hmem⟩
      refine ⟨hhard.trans hrhard, hsnap.trans hrsnap, fun d hd => ?_⟩
      rcases hmem d hd with hd | rfl
      · exact hrmem d hd
      · exact Or.inr ha

/-- A saved batch makes the ballot of the node durable. -/
theorem Recovered.saveReady_spec {n n' : Node} {rd : Ready} {rec rec' : Recovered}
    (hready : n.ready = .ok (rd, n')) (h : rec.saveReady rd = .ok rec')
    (hcurrent : n.prevHard.ballot = n.core.ballot ->
      rec.hardState.ballot = n.core.ballot) :
    rec'.hardState.ballot = n.core.ballot ∧
      forall e, e ∈ rec'.entries -> e ∈ rec.entries ∨ e ∈ n.log.entries := by
  rcases Node.ready_spec hready with ⟨_, _, _, hhard, hmem⟩
  rcases bind_eq_ok.mp h with ⟨mid, hmid, hpure⟩
  cases hpure
  rcases Recovered.saveEntries_spec hmid with ⟨hsame, _, hstored⟩
  constructor
  · rw [hhard]
    by_cases hprev : n.hardState = n.prevHard
    · rw [if_neg (not_not.mpr hprev), Option.getD_none, hsame]
      exact hcurrent (by rw [← hprev]; rfl)
    · rw [if_pos hprev]
      rfl
  · intro e he
    rcases hstored e he with he | he
    · exact Or.inl he
    · exact Or.inr (hmem e (List.mem_append_left _ he))

theorem Node.core_newNode {cfg : Config} {rec : Recovered} {applied : Nat} {n : Node}
    (hplain : forall e, e ∈ rec.entries -> e.type = .normal)
    (h : newNode cfg rec applied = .ok n) :
    exists log : RaftLog, log.entries = rec.entries ∧
      n.core =
        { id := cfg.id
          voters := cfg.peers.dedup
          learners := []
          role := .follower
          term := rec.hardState.term
          vote := rec.hardState.vote
          votes := ∅
          log := log
          nextIndex := fun _ => none
          matchIndex := fun _ => 0
          msgs := []
          stabled := log.lastIndex
          readReady := []
          roundReads := []
          pendingReads := []
          readAcks := ∅
          useLease := cfg.leaseRead
          prevHard :=
            { term := rec.hardState.term
              vote := rec.hardState.vote
              commit := log.committed } } := by
  rw [newNode] at h
  split at h
  · cases h
  · rcases bind_eq_ok.mp h with ⟨log, hlog, h⟩
    rcases recoveredLog_eq hlog with ⟨hsnap, hents⟩
    split at h
    · cases h
    · next hcommit =>
        split at h
        · cases h
        · next hbelow =>
            have hfold : forall (es : List (Entry × Nat)) (n : Node),
                (forall x, x ∈ es -> x.1.type = .normal) ->
                es.foldl (fun n x => n.replayConfEntry (log.offset + x.2) x.1) n = n := by
              intro es
              induction es with
              | nil => exact fun _ _ => rfl
              | cons x es ih =>
                  intro n hes
                  have hx : n.replayConfEntry (log.offset + x.2) x.1 = n := by
                    rw [replayConfEntry, hes x List.mem_cons_self, if_neg (by decide)]
                  rw [List.foldl_cons, hx]
                  exact ih n fun y hy => hes y (List.mem_cons_of_mem x hy)
            cases h
            refine ⟨{ log with
              applied := applied
              snapIndex_le := Nat.le_of_not_lt hbelow
              applied_le := Nat.le_of_not_lt hcommit }, hents, ?_⟩
            rw [core_resetElectionTimer]
            have hreplay : forall x, x ∈ log.entries.zipIdx -> x.1.type = .normal := by
              intro x hx
              apply hplain
              rw [← hents]
              exact List.fst_mem_of_mem_zipIdx hx
            rw [hfold _ _ hreplay]
            rfl

theorem NodeVotes.saved (h : NodeVotes voters s i (s.voter i) c file)
    {log : RaftLog} {msgs : List Message} {stabled : Nat} {prev : HardState}
    {file' : Except StorageError Recovered}
    (hlog : forall e, e ∈ log.entries -> e ∈ c.log.entries)
    (hmsgs : forall m, m ∈ msgs -> m ∈ c.msgs)
    (hprev : prev.ballot.Before c.ballot)
    (hfile : forall {rec}, file' = .ok rec -> rec.hardState.ballot = c.ballot ∧
      forall e, e ∈ rec.entries -> e.type = .normal) :
    NodeVotes voters (s.save i) i ((s.save i).voter i)
      { c with log := log, msgs := msgs, stabled := stabled, prevHard := prev }
      file' := by
  have hvoter : (s.save i).voter i = (s.voter i).save := Election.State.set_voter _ _ _
  rw [hvoter]
  exact {
    id_eq := h.id_eq
    voters_nodup := h.voters_nodup
    voters_eq := h.voters_eq
    term_eq := h.term_eq
    vote_eq := h.vote_eq
    tally_eq := h.tally_eq
    tally_sub := h.tally_sub
    leads := h.leads
    plain := fun e he => h.plain e (hlog e he)
    told := fun m hm => (h.told m (hmsgs m hm)).mono Or.inl
    prevHard := hprev
    file_plain := fun hrec => (hfile hrec).right
    file_ballot := by
      intro rec hrec
      have hballot := (hfile hrec).left
      have hterm : rec.hardState.term = c.term := congrArg Prod.fst hballot
      have hvote : rec.hardState.vote = c.vote := congrArg Prod.snd hballot
      rw [hterm, hvote]
      exact ⟨h.term_eq, h.vote_eq⟩
    file_current := fun hrec _ => (hfile hrec).left }

theorem NodeVotes.restored (h : NodeVotes voters s i x c (.ok rec)) {cfg : Config}
    (hid : cfg.id = i) (hpeers : cfg.peers.toFinset = voters) {applied : Nat} {n : Node}
    (hn : Node.restoreNode cfg rec applied = .ok n) :
    NodeVotes voters s i x.crash n.core (.ok rec) := by
  rcases Node.core_newNode (h.file_plain rfl) hn with ⟨log, hents, hcore⟩
  rcases h.file_ballot rfl with ⟨hterm, hvote⟩
  rw [hcore]
  constructor
  · exact hid
  · exact List.nodup_dedup _
  · rw [← hpeers]
    ext p
    simp only [List.mem_toFinset, List.mem_dedup]
  · exact hterm
  · exact hvote
  · rfl
  · exact Finset.empty_subset _
  · intro hrole
    cases hrole
  · intro e he
    rw [hents] at he
    exact h.file_plain rfl e he
  · intro m hm
    cases hm
  · exact Ballot.Before.refl _
  · exact h.file_plain
  · exact h.file_ballot
  · intro rec' hrec _
    cases hrec
    rfl

end

/-!
## Runs
-/

structure VotesSim (voters : Finset Nat) (s : Ballots) (g : DurableCluster) : Prop where
  inv : Election.Inv voters s
  nodes : forall {i}, i ∈ voters ->
    NodeVotes voters s i (s.voter i) (g.cluster.nodes i).core (g.files i)
  network : forall m, m ∈ g.cluster.network -> Told voters s.cast m

namespace VotesSim

variable {cfg : ClusterConfig} {voters : Finset Nat} {s s' : Ballots}
variable {g g' : DurableCluster} {i : Nat}

theorem update (h : VotesSim voters s g) (hsteps : Election.Steps voters i s s')
    {n : Node} {file : Except StorageError Recovered} {net : List Message}
    (hnode : NodeVotes voters s' i (s'.voter i) n.core file)
    (hnet : forall m, m ∈ net -> Told voters s'.cast m) :
    VotesSim voters s'
      { cluster := { g.cluster.setNode i n with network := net }
        files := Function.update g.files i file } := by
  refine ⟨h.inv.steps hsteps, ?_, hnet⟩
  intro j hj
  by_cases hji : j = i
  · subst hji
    simp only [Cluster.setNode, Function.update_self]
    exact hnode
  · simp only [Cluster.setNode, Function.update_of_ne hji]
    exact (h.nodes hj).grows (Election.Steps.grows hsteps)
      (Election.Steps.voter_ne hsteps hji)

theorem operation_from (h : VotesSim voters s g) (hi : i ∈ voters) (hzero : 0 ∉ voters)
    {inp : Input} (hinp : InputTold voters s i inp) {c : Core} {n : Node}
    (hc : NodeVotes voters s i (s.voter i) c (g.files i))
    (hmoves : Moves inp c n.core) :
    exists s', Election.Grows s s' ∧
      VotesSim voters s' { g with cluster := g.cluster.setNode i n } := by
  rcases hc.moves hi hzero hinp hmoves with ⟨s', hsteps, hnode⟩
  have hgrows := Election.Steps.grows hsteps
  have hsim := h.update hsteps hnode
    fun m hm => (h.network m hm).mono hgrows.cast
  rw [Function.update_eq_self] at hsim
  exact ⟨s', hgrows, hsim⟩

theorem operation (h : VotesSim voters s g) (hi : i ∈ voters) (hzero : 0 ∉ voters)
    {inp : Input} (hinp : InputTold voters s i inp) {n : Node}
    (hmoves : Moves inp (g.cluster.nodes i).core n.core) :
    exists s', Election.Grows s s' ∧
      VotesSim voters s' { g with cluster := g.cluster.setNode i n } :=
  h.operation_from hi hzero hinp (h.nodes hi) hmoves

/-- A batch is saved and sent: the votes it tells are saved ones. -/
theorem batch (h : VotesSim voters s g) (hi : i ∈ voters) {rd : Ready} {n : Node}
    (hready : (g.cluster.nodes i).ready = .ok (rd, n)) (stabled : Nat) {prev : HardState}
    (hprev : prev.ballot.Before (g.cluster.nodes i).core.ballot) :
    NodeVotes voters (s.save i) i ((s.save i).voter i)
        { (g.cluster.nodes i).core with
          msgs := [], stabled := stabled, prevHard := prev }
        (g.files i >>= fun rec => rec.saveReady rd) ∧
      forall m, m ∈ g.cluster.network ++ rd.messages ->
        Told voters (s.save i).cast m := by
  have hnode := h.nodes hi
  constructor
  · refine hnode.saved (fun e he => he) (fun m hm => absurd hm List.not_mem_nil) hprev ?_
    intro rec' hrec'
    rcases bind_eq_ok.mp hrec' with ⟨rec, hrec, hsave⟩
    rcases Recovered.saveReady_spec hready hsave (hnode.file_current hrec) with
      ⟨hballot, hmem⟩
    refine ⟨hballot, fun e he => ?_⟩
    exact (hmem e he).elim (hnode.file_plain hrec e) (hnode.plain e)
  · intro m hm
    rcases List.mem_append.mp hm with hm | hm
    · exact (h.network m hm).mono Or.inl
    · rw [(Node.ready_spec hready).right.left] at hm
      exact hnode.told m hm

theorem saveAndSend (h : VotesSim voters s g) (hi : i ∈ voters) {rd : Ready}
    (hok : g.saveAndSend i = .ok (rd, g')) :
    exists s', Election.Grows s s' ∧ VotesSim voters s' g' := by
  rcases bind_eq_ok.mp hok with ⟨⟨rd', n⟩, hready, hpure⟩
  cases hpure
  have hstep : Election.Step voters i s (s.save i) := Election.Step.save
  rcases h.batch hi hready (g.cluster.nodes i).stabled (h.nodes hi).prevHard with
    ⟨hnode, hnet⟩
  rcases Node.ready_spec hready with ⟨rfl, _⟩
  exact ⟨_, hstep.grows, h.update (ReflTransGen.single hstep) hnode hnet⟩

theorem drain (h : VotesSim voters s g) (hi : i ∈ voters) (hzero : 0 ∉ voters)
    (hok : g.drain i = .ok g') :
    exists s', Election.Grows s s' ∧ VotesSim voters s' g' := by
  rcases bind_eq_ok.mp hok with ⟨⟨rd, g1⟩, hsave, hok⟩
  rcases bind_eq_ok.mp hok with ⟨n', hadvance, hpure⟩
  cases hpure
  rcases bind_eq_ok.mp hsave with ⟨⟨rd', n⟩, hready, hpure⟩
  cases hpure
  rcases Node.ready_spec hready with ⟨rfl, _, _, hhard, hmem⟩
  simp only [Cluster.setNode, Function.update_self] at hadvance
  have hplain : forall e, e ∈ rd.committedEntries -> e.type = .normal :=
    fun e he => (h.nodes hi).plain e (hmem e (List.mem_append_right _ he))
  rcases Node.advance_spec hplain hadvance with ⟨stabled, c, log, hmoves, hlog, hcore⟩
  have hprev : (rd.hardState.getD (g.cluster.nodes i).prevHard).ballot.Before
      (g.cluster.nodes i).core.ballot := by
    rw [hhard]
    split
    · exact Ballot.Before.refl _
    · exact (h.nodes hi).prevHard
  have hstep : Election.Step voters i s (s.save i) := Election.Step.save
  rcases h.batch hi hready stabled hprev with ⟨hnode, hnet⟩
  rcases hnode.moves hi hzero InputTold.none hmoves with ⟨s2, hsteps, hc⟩
  have hall := (ReflTransGen.single hstep).trans hsteps
  have hn' : NodeVotes voters s2 i (s2.voter i) n'.core
      (g.files i >>= fun rec => rec.saveReady rd) := by
    rw [hcore]
    exact { hc with
      plain := by
        intro e he
        rw [hlog] at he
        exact hc.plain e he }
  have hsim := h.update hall hn'
    fun m hm => (hnet m hm).mono (Election.Steps.grows hsteps).cast
  refine ⟨s2, Election.Steps.grows hall, ?_⟩
  simp only [Cluster.setNode, Function.update_idem] at hsim ⊢
  exact hsim

theorem compact (h : VotesSim voters s g) (hi : i ∈ voters) {index : Nat}
    (hok : g.compact i index = .ok g') :
    exists s', Election.Grows s s' ∧ VotesSim voters s' g' := by
  rcases bind_eq_ok.mp hok with ⟨n, hn, hok⟩
  rcases bind_eq_ok.mp hok with ⟨ents, hents, hpure⟩
  cases hpure
  rcases bind_eq_ok.mp hn with ⟨log, hlog, hpure⟩
  cases hpure
  have hnode := h.nodes hi
  have hsub : forall e, e ∈ log.entries -> e ∈ (g.cluster.nodes i).log.entries := by
    intro e he
    rcases RaftLog.compactTo_entries hlog with rfl | ⟨_, _, _, _, _, hdrop⟩
    · exact he
    · rw [hdrop] at he
      exact List.mem_of_mem_drop he
  have hstep : Election.Step voters i s (s.save i) := Election.Step.save
  refine ⟨s.save i, hstep.grows, ?_⟩
  refine h.update (ReflTransGen.single hstep) ?_
    fun m hm => (h.network m hm).mono Or.inl
  refine hnode.saved hsub (fun m hm => hm) hnode.prevHard ?_
  intro rec hrec
  cases hrec
  refine ⟨rfl, fun e he => ?_⟩
  exact hnode.plain e (hsub e (RaftLog.mem_of_slice hents he))

theorem restart (h : VotesSim cfg.voters s g) (hi : i ∈ cfg.voters) {applied : Nat}
    (hok : g.restart cfg i applied = .ok g') :
    exists s', Election.Grows s s' ∧ VotesSim cfg.voters s' g' := by
  rcases bind_eq_ok.mp hok with ⟨rec, hrec, hok⟩
  rcases bind_eq_ok.mp hok with ⟨n, hn, hpure⟩
  cases hpure
  have hfile := mapError_eq_ok.mp hrec
  have hnode := h.nodes hi
  rw [hfile] at hnode
  have hback := hnode.restored (cfg.config_id i hi) (cfg.config_peers i hi)
    (mapError_eq_ok.mp hn)
  have hstep : Election.Step cfg.voters i s (s.set i (s.voter i).crash) :=
    Election.Step.crash
  rw [← hfile] at hback
  rcases NodeVotes.exists_set hstep hback with ⟨s', hsteps, hnode'⟩
  have hgrows := Election.Steps.grows hsteps
  have hsim := h.update hsteps hnode' fun m hm => (h.network m hm).mono hgrows.cast
  rw [Function.update_eq_self] at hsim
  exact ⟨s', hgrows, hsim⟩

theorem exec (h : VotesSim cfg.voters s g) {a : CrashAction} (ha : g.Allowed cfg a)
    (hok : g.exec cfg a = .ok g') :
    exists s', Election.Grows s s' ∧ VotesSim cfg.voters s' g' := by
  have hzero := cfg.zero_notMem
  cases a with
  | crash id applied saves =>
      cases saves with
      | false => exact h.restart ha hok
      | true =>
          rcases bind_eq_ok.mp hok with ⟨⟨rd, g1⟩, hsave, hok⟩
          rcases h.saveAndSend ha (mapError_eq_ok.mp hsave) with ⟨s1, hgrows, h1⟩
          rcases h1.restart ha hok with ⟨s2, hgrows', h2⟩
          exact ⟨s2, hgrows.trans hgrows', h2⟩
  | act a =>
      cases a with
      | ready id => exact h.drain ha hzero (mapError_eq_ok.mp hok)
      | compactTo id index => exact h.compact ha.left (mapError_eq_ok.mp hok)
      | tick id =>
          rcases bind_eq_ok.mp hok with ⟨cl, hcl, hpure⟩
          rcases bind_eq_ok.mp (mapError_eq_ok.mp hcl) with ⟨n, hn, hset⟩
          cases hpure
          cases hset
          exact h.operation ha hzero InputTold.none (Node.tick_effect.returned hn).left
      | campaign id =>
          rcases bind_eq_ok.mp hok with ⟨cl, hcl, hpure⟩
          rcases bind_eq_ok.mp (mapError_eq_ok.mp hcl) with ⟨n, hn, hset⟩
          cases hpure
          cases hset
          exact h.operation ha.left hzero InputTold.none
            ((Node.campaign_effect ha.right).returned hn).left
      | propose id data =>
          rcases bind_eq_ok.mp hok with ⟨cl, hcl, hpure⟩
          rcases bind_eq_ok.mp (mapError_eq_ok.mp hcl) with ⟨r, hr, hset⟩
          cases hpure
          cases hset
          refine h.operation ha hzero ?_ (Node.step_input_effect.returned hr).left
          intro m hm
          cases hm
          exact Or.inl rfl
      | transferLeader id target =>
          rcases bind_eq_ok.mp hok with ⟨cl, hcl, hpure⟩
          rcases bind_eq_ok.mp (mapError_eq_ok.mp hcl) with ⟨r, hr, hset⟩
          cases hpure
          cases hset
          exact h.operation ha hzero InputTold.none
            ((Node.transferLeader_effect target).returned hr).left
      | readIndex id read =>
          rcases bind_eq_ok.mp hok with ⟨cl, hcl, hpure⟩
          rcases bind_eq_ok.mp (mapError_eq_ok.mp hcl) with ⟨r, hr, hset⟩
          cases hpure
          cases hset
          rcases Node.readIndex_effect (n := g.cluster.nodes id) {} read with hfalse |
            ⟨_, _, heffect⟩
          · rw [hfalse] at hr
            cases hr
            exact h.operation ha hzero InputTold.none ReflTransGen.refl
          · have hqueued : NodeVotes cfg.voters s id (s.voter id)
                ((g.cluster.nodes id).core.queueRead read) (g.files id) :=
              { h.nodes ha with }
            exact h.operation_from ha hzero InputTold.none hqueued
              (heffect.returned hr).left
      | deliver k =>
          rcases bind_eq_ok.mp hok with ⟨cl, hcl, hpure⟩
          have hcl := mapError_eq_ok.mp hcl
          cases hpure
          cases hk : g.cluster.network[k]? with
          | none =>
              rw [Cluster.exec, hk] at hcl
              cases hcl
              exact ⟨s, Election.Grows.refl s, h⟩
          | some m =>
              rw [Cluster.exec, hk] at hcl
              rcases bind_eq_ok.mp hcl with ⟨r, hr, hset⟩
              cases hset
              refine h.operation (ha m hk) hzero ?_
                (Node.step_input_effect.returned hr).left
              intro m' hm'
              cases hm'
              exact Or.inr ⟨rfl, h.network m (List.mem_of_getElem? hk)⟩

end VotesSim

namespace DurableCluster

variable {cfg : ClusterConfig} {g g' start : DurableCluster}

theorem Initial.sim (h : g.Initial cfg) :
    VotesSim cfg.voters Election.State.init g := by
  rcases h with ⟨⟨hnodes, hnetwork, _⟩, hfiles⟩
  refine ⟨Election.Inv.init, ?_, ?_⟩
  · intro i hi
    have hplain : forall e, e ∈ ({} : Recovered).entries -> e.type = .normal := by
      intro e he
      cases he
    rcases Node.core_newNode hplain (hnodes i hi) with ⟨log, hents, hcore⟩
    rw [hcore, hfiles i]
    constructor
    · exact cfg.config_id i hi
    · exact List.nodup_dedup _
    · rw [← cfg.config_peers i hi]
      ext p
      simp only [List.mem_toFinset, List.mem_dedup]
    · rfl
    · rfl
    · rfl
    · exact Finset.empty_subset _
    · intro hrole
      cases hrole
    · intro e he
      rw [hents] at he
      cases he
    · intro m hm
      cases hm
    · exact Ballot.Before.refl _
    · intro rec hrec
      cases hrec
      exact hplain
    · intro rec hrec
      cases hrec
      exact ⟨rfl, rfl⟩
    · intro rec hrec _
      cases hrec
      rfl
  · rw [hnetwork]
    intro m hm
    cases hm

/-- Along a run the facts of the election stay. -/
theorem run_sim {s : Ballots} (h : VotesSim cfg.voters s g)
    (hrun : Reach (exec cfg) (fun g a => g.Allowed cfg a) g g') :
    exists s', Election.Grows s s' ∧ VotesSim cfg.voters s' g' := by
  refine hrun.invariant
    (I := fun g' => exists s', Election.Grows s s' ∧ VotesSim cfg.voters s' g') ?_
    ⟨s, Election.Grows.refl s, h⟩
  rintro g1 a g2 ⟨s1, hgrows, h1⟩ ha hexec
  rcases h1.exec ha hexec with ⟨s2, hgrows', h2⟩
  exact ⟨s2, hgrows.trans hgrows', h2⟩

/-- Election safety: over a whole run with crashes, a term has at most one
leader, and a node grants its vote of a term to at most one candidate. -/
theorem election_safety (cfg : ClusterConfig) (hstart : start.Initial cfg)
    (hrun : Reach (exec cfg) (fun g a => g.Allowed cfg a) start g)
    (hrest : Reach (exec cfg) (fun g a => g.Allowed cfg a) g g') :
    (forall i j t, i ∈ cfg.voters -> j ∈ cfg.voters ->
      g.Leads i t -> g'.Leads j t -> i = j) ∧
    (forall v t c c', g'.Granted v t c -> g'.Granted v t c' -> c = c') := by
  rcases run_sim hstart.sim hrun with ⟨s, _, hs⟩
  rcases run_sim hs hrest with ⟨s', hgrows, hs'⟩
  constructor
  · rintro i j t hi hj ⟨hrole, hterm⟩ ⟨hrole', hterm'⟩
    have hled : s.led i t := hterm ▸ (hs.nodes hi).leads hrole
    have hled' : s'.led j t := hterm' ▸ (hs'.nodes hj).leads hrole'
    exact hs'.inv.led_unique (hgrows.led hled) hled'
  · have hcast : forall {v t c}, g'.Granted v t c -> s'.cast v t c := by
      rintro v t c ⟨m, hm, htype, hreject, rfl, rfl, rfl⟩
      have htold := (hs'.network m hm).right
      simp only [htype] at htold
      exact htold hreject
    intro v t c c' hc hc'
    exact hs'.inv.cast_unique (hcast hc) (hcast hc')

def three : DurableCluster where
  cluster := ClusterConfig.three.start

theorem initial_three : three.Initial ClusterConfig.three :=
  ⟨ClusterConfig.three.initial_start, fun _ => rfl⟩

/-- The voter and then the leader of the first term crash, the leader after it
has saved and sent a batch, and node 3 asks the restarted voter. -/
def crashedVoter : List CrashAction :=
  [.crash 2 0 false, .act (.propose 1 [7]), .crash 1 0 true,
    .act (.campaign 3), .act (.ready 3), .act (.deliver 14), .act (.ready 2)]

theorem election_safety_crashedVoter :
    exists g g',
      runWhile (exec ClusterConfig.three) (fun g a => g.Allowed ClusterConfig.three a)
        (ClusterConfig.electOne.map CrashAction.act) three = .ok g ∧
      runWhile (exec ClusterConfig.three) (fun g a => g.Allowed ClusterConfig.three a)
        crashedVoter g = .ok g' ∧
      g.Leads 1 1 ∧ g'.Granted 2 1 1 ∧
      (g'.cluster.nodes 1).role = .follower ∧
      (forall j, j ∈ ClusterConfig.three.voters -> g'.Leads j 1 -> 1 = j) ∧
      (forall c, g'.Granted 2 1 c -> 1 = c) := by
  have hrun : okWith
      (do
        let g <- runWhile (exec ClusterConfig.three)
          (fun g a => g.Allowed ClusterConfig.three a)
          (ClusterConfig.electOne.map CrashAction.act) three
        let g' <- runWhile (exec ClusterConfig.three)
          (fun g a => g.Allowed ClusterConfig.three a) crashedVoter g
        pure (g, g'))
      (fun x => x.1.Leads 1 1 ∧ x.2.Granted 2 1 1 ∧
        (x.2.cluster.nodes 1).role = .follower) := by
    decide +kernel
  rcases exists_of_okWith hrun with ⟨⟨g, g'⟩, hok, hcheck⟩
  rcases bind_eq_ok.mp hok with ⟨g1, hg, hok⟩
  rcases bind_eq_ok.mp hok with ⟨g2, hg', hpure⟩
  cases hpure
  rcases of_decide_eq_true hcheck with ⟨hleads, hgranted, hrole⟩
  have hsafe := election_safety ClusterConfig.three initial_three
    (Reach.of_runWhile hg) (Reach.of_runWhile hg')
  exact ⟨g, g', hg, hg', hleads, hgranted, hrole,
    fun j hj hj' => hsafe.left 1 j 1 (by decide) hj hleads hj',
    fun c hc => hsafe.right 2 1 1 c hgranted hc⟩

end DurableCluster

end Raft
end Basalt
