import Basalt.Engine.Records
import Basalt.Lib.Run
import Basalt.Raft.Storage

/-!
# Exact replay

Committed entries are applied in any number of calls.  A crash takes the
engine back to its state after some earlier entry; the restart recovers the
machine from the engine and the entries after that one are applied again.
-/

namespace Basalt
namespace Engine

open Lib Wal Raft Std

/-- Commands with sessions are numbered from one, and write no reserved key. -/
def CommandOK : Except MachineError (Option Command) -> Prop
  | .error _ => False
  | .ok none => True
  | .ok (some c) => Unreserved c.batch.ops ∧ (¬ NoDedup c.clientID -> 0 < c.seq)

instance : (x : Except MachineError (Option Command)) -> Decidable (CommandOK x)
  | .error _ => .isFalse not_false
  | .ok none => .isTrue True.intro
  | .ok (some _) => inferInstanceAs (Decidable (_ ∧ _))

def Replayable (e : Entry) : Prop :=
  (e.index < rangeLE 8 ∧ e.term < rangeLE 8) ∧ CommandOK (entryCommand e)

instance (e : Entry) : Decidable (Replayable e) :=
  inferInstanceAs (Decidable (_ ∧ _))

def commandOf (e : Entry) : Option Command :=
  match entryCommand e with
  | .ok cmd => cmd
  | .error _ => none

theorem Replayable.entryCommand {e : Entry} (h : Replayable e) :
    entryCommand e = .ok (commandOf e) := by
  have hok := h.right
  rw [commandOf]
  cases hcmd : Engine.entryCommand e with
  | ok cmd => rfl
  | error err =>
      rw [hcmd] at hok
      exact hok.elim

theorem Replayable.commandOf {e : Entry} (h : Replayable e) {c : Command}
    (hc : commandOf e = some c) :
    Unreserved c.batch.ops ∧ (¬ NoDedup c.clientID -> 0 < c.seq) := by
  have hok := h.right
  rw [h.entryCommand, hc] at hok
  exact hok

/-!
## What the log means
-/

/-- A command takes effect if its client has no session, or its sequence number
exceeds those of all earlier commands of the client. -/
def TakesEffect (earlier : List Command) (c : Command) : Prop :=
  NoDedup c.clientID ∨
    forall d, d ∈ earlier -> d.clientID = c.clientID -> d.seq < c.seq

instance (earlier : List Command) (c : Command) : Decidable (TakesEffect earlier c) :=
  inferInstanceAs (Decidable (_ ∨ _))

/-- The writes of the commands that take effect, in the order of the log. -/
def contents (earlier : List Command) (db : Store) : List Entry -> Store
  | [] => db
  | e :: entries =>
      match commandOf e with
      | none => contents earlier db entries
      | some c =>
          contents (earlier ++ [c])
            (if TakesEffect earlier c then Store.applyRaft db c.batch.ops else db) entries

/-!
## Calls of Apply
-/

namespace StateMachine

variable {sm : StateMachine}

theorem applyEntry_of_replayable {e : Entry} (he : Replayable e)
    (hindex : e.index = sm.applied + 1) :
    exists out, sm.applyEntry e = .ok (sm.commit e (commandOf e), out) := by
  refine ⟨(commandOf e).map fun c =>
    { clientID := c.clientID, seq := c.seq, index := e.index }, ?_⟩
  rw [applyEntry, if_neg (not_not.mpr hindex), he.entryCommand]
  rfl

def after (sm : StateMachine) (entries : List Entry) : StateMachine :=
  entries.foldl (fun sm e => sm.commit e (commandOf e)) sm

theorem applied_after {entries : List Entry} (hnum : NumberedFrom (sm.applied + 1) entries) :
    (sm.after entries).applied = sm.applied + entries.length := by
  induction entries generalizing sm with
  | nil => rfl
  | cons e entries ih =>
      have hindex : e.index = sm.applied + 1 := hnum 0 e rfl
      have htail : NumberedFrom ((sm.commit e (commandOf e)).applied + 1) entries := by
        change NumberedFrom (e.index + 1) entries
        rw [hindex]
        exact hnum.tail
      change ((sm.commit e (commandOf e)).after entries).applied = _
      rw [ih htail, List.length_cons]
      change e.index + entries.length = _
      lia

theorem apply_eq_after {entries : List Entry} (hnum : NumberedFrom (sm.applied + 1) entries)
    (hlog : forall e, e ∈ entries -> Replayable e) :
    exists out, sm.apply entries = (sm.after entries, .ok out) := by
  induction entries generalizing sm with
  | nil => exact ⟨[], rfl⟩
  | cons e entries ih =>
      have hindex : e.index = sm.applied + 1 := hnum 0 e rfl
      rcases applyEntry_of_replayable (hlog e List.mem_cons_self) hindex with ⟨out, hok⟩
      have htail : NumberedFrom ((sm.commit e (commandOf e)).applied + 1) entries := by
        change NumberedFrom (e.index + 1) entries
        rw [hindex]
        exact hnum.tail
      rcases ih htail fun x hx => hlog x (List.mem_cons_of_mem e hx) with ⟨outs, hrest⟩
      refine ⟨out.toList ++ outs, ?_⟩
      rw [apply, hok]
      dsimp only
      rw [hrest]
      rfl

theorem after_append (l l' : List Entry) : sm.after (l ++ l') = (sm.after l).after l' :=
  List.foldl_append

end StateMachine

theorem Kept.after {sm : StateMachine} (h : Kept sm) {entries : List Entry}
    (hnum : NumberedFrom (sm.applied + 1) entries)
    (hlog : forall e, e ∈ entries -> Replayable e) : Kept (sm.after entries) := by
  induction entries generalizing sm with
  | nil => exact h
  | cons e entries ih =>
      have he := hlog e List.mem_cons_self
      have hindex : e.index = sm.applied + 1 := hnum 0 e rfl
      have hkept : Kept (sm.commit e (commandOf e)) :=
        h.commit (by lia) he.left.left he.left.right fun c hc => (he.commandOf hc).left
      apply ih hkept
      · change NumberedFrom (e.index + 1) entries
        rw [hindex]
        exact hnum.tail
      · exact fun x hx => hlog x (List.mem_cons_of_mem e hx)

/-!
## Sessions
-/

/-- The session of a client is the greatest sequence number so far. -/
structure SessionsOf (earlier : List Command) (sm : StateMachine) : Prop where
  upper : forall d, d ∈ earlier -> ¬ NoDedup d.clientID -> d.seq ≤ sm.session d.clientID
  attained : forall client, sm.session client = 0 ∨
    exists d, d ∈ earlier ∧ d.clientID = client ∧ d.seq = sm.session client

namespace SessionsOf

variable {earlier : List Command} {sm : StateMachine}

theorem init : SessionsOf [] {} where
  upper := fun d hd => absurd hd List.not_mem_nil
  attained := fun client => by
    left
    rw [StateMachine.session, ExtTreeMap.getD_empty]

theorem lt_iff (h : SessionsOf earlier sm) {c : Command} (hdedup : ¬ NoDedup c.clientID)
    (hseq : 0 < c.seq) : sm.session c.clientID < c.seq <-> TakesEffect earlier c := by
  constructor
  · intro hlt
    right
    intro d hd hclient
    have hle := h.upper d hd (hclient ▸ hdedup)
    rw [hclient] at hle
    exact UInt64.lt_of_le_of_lt hle hlt
  · rintro (hno | hall)
    · exact absurd hno hdedup
    · rcases h.attained c.clientID with hzero | ⟨d, hd, hclient, heq⟩
      · rw [hzero]
        exact hseq
      · rw [← heq]
        exact hall d hd hclient

theorem sessions_commit_some {e : Entry} {c : Command} :
    (sm.commit e (some c)).sessions =
      if ¬ NoDedup c.clientID ∧ sm.session c.clientID < c.seq then
        sm.sessions.insert c.clientID c.seq
      else sm.sessions := by
  rw [StateMachine.commit, StateMachine.effect]
  by_cases hdedup : NoDedup c.clientID
  · rw [if_pos hdedup, if_neg fun h => h.left hdedup]
    rfl
  · rw [if_neg hdedup]
    by_cases hseq : sm.session c.clientID < c.seq
    · rw [if_pos hseq, if_pos ⟨hdedup, hseq⟩]
      rfl
    · rw [if_neg hseq, if_neg fun h => hseq h.right]
      rfl

theorem commit (h : SessionsOf earlier sm) (e : Entry) (c : Command) :
    SessionsOf (earlier ++ [c]) (sm.commit e (some c)) := by
  have hsame : (sm.commit e (some c)).sessions = sm.sessions ->
      (¬ NoDedup c.clientID -> c.seq ≤ sm.session c.clientID) ->
      SessionsOf (earlier ++ [c]) (sm.commit e (some c)) := by
    intro heq hle
    have hsession : forall client,
        (sm.commit e (some c)).session client = sm.session client := by
      intro client
      rw [StateMachine.session, heq]
      rfl
    constructor
    · intro d hd hdedup
      rw [hsession]
      rcases List.mem_append.mp hd with hd | hd
      · exact h.upper d hd hdedup
      · rw [List.mem_singleton.mp hd] at hdedup ⊢
        exact hle hdedup
    · intro client
      rw [hsession]
      rcases h.attained client with hzero | ⟨d, hd, hrest⟩
      · exact Or.inl hzero
      · exact Or.inr ⟨d, List.mem_append_left _ hd, hrest⟩
  by_cases hnew : ¬ NoDedup c.clientID ∧ sm.session c.clientID < c.seq
  · have heq : (sm.commit e (some c)).sessions = sm.sessions.insert c.clientID c.seq := by
      rw [sessions_commit_some, if_pos hnew]
    have hsession : forall client, (sm.commit e (some c)).session client =
        if c.clientID = client then c.seq else sm.session client := by
      intro client
      rw [StateMachine.session, heq, ExtTreeMap.getD_insert]
      by_cases hc : c.clientID = client
      · rw [if_pos hc, hc, if_pos ReflCmp.compare_self]
      · rw [if_neg hc, if_neg fun hcmp => hc (LawfulEqCmp.eq_of_compare hcmp)]
        rfl
    constructor
    · intro d hd hdedup
      rw [hsession]
      rcases List.mem_append.mp hd with hd | hd
      · split
        · next hc =>
            have hle := h.upper d hd hdedup
            rw [← hc] at hle
            exact UInt64.le_of_lt (UInt64.lt_of_le_of_lt hle hnew.right)
        · exact h.upper d hd hdedup
      · rw [List.mem_singleton.mp hd, if_pos rfl]
        exact UInt64.le_refl _
    · intro client
      rw [hsession]
      split
      · next hc =>
          exact Or.inr ⟨c, List.mem_append_right _ List.mem_cons_self, hc, rfl⟩
      · rcases h.attained client with hzero | ⟨d, hd, hrest⟩
        · exact Or.inl hzero
        · exact Or.inr ⟨d, List.mem_append_left _ hd, hrest⟩
  · apply hsame
    · rw [sessions_commit_some, if_neg hnew]
    · intro hdedup
      exact UInt64.not_lt.mp fun hlt => hnew ⟨hdedup, hlt⟩

end SessionsOf

/-!
## The user's data
-/

theorem getElem?_applyRaft_congr {db db' : Store} {key : Bytes} (h : db[key]? = db'[key]?)
    (ops : List Op) : (Store.applyRaft db ops)[key]? = (Store.applyRaft db' ops)[key]? := by
  induction ops generalizing db db' with
  | nil => exact h
  | cons op ops ih =>
      apply ih
      cases op with
      | put userKey value =>
          rw [Store.applyOp, Store.applyOp, ExtTreeMap.getElem?_insert,
            ExtTreeMap.getElem?_insert, h]
      | delete userKey =>
          rw [Store.applyOp, Store.applyOp, ExtTreeMap.getElem?_erase,
            ExtTreeMap.getElem?_erase, h]

theorem getElem?_commit {earlier : List Command} {sm : StateMachine} {e : Entry} {c : Command}
    (h : SessionsOf earlier sm) (hseq : ¬ NoDedup c.clientID -> 0 < c.seq) {key : Bytes}
    (hkey : ¬ Reserved key) :
    (sm.commit e (some c)).db[key]? =
      (if TakesEffect earlier c then Store.applyRaft sm.db c.batch.ops else sm.db)[key]? := by
  have happlied : appliedKey ≠ key := by
    rintro rfl
    exact hkey reserved_appliedKey
  have hsession : sessionKey c.clientID ≠ key := by
    rintro rfl
    exact hkey (reserved_sessionKey c.clientID)
  rw [StateMachine.commit, Store.applyRaft, List.foldl_append]
  change ((List.foldl Store.applyOp sm.db (sm.effect (some c)).1).insert appliedKey _)[key]? = _
  rw [getElem?_insert_of_ne happlied, StateMachine.effect]
  by_cases hdedup : NoDedup c.clientID
  · have ht : TakesEffect earlier c := Or.inl hdedup
    rw [if_pos hdedup, if_pos ht]
    rfl
  · rw [if_neg hdedup]
    by_cases hlt : sm.session c.clientID < c.seq
    · rw [if_pos hlt, if_pos ((h.lt_iff hdedup (hseq hdedup)).mp hlt), List.foldl_append]
      exact getElem?_insert_of_ne hsession
    · rw [if_neg hlt, if_neg fun ht => hlt ((h.lt_iff hdedup (hseq hdedup)).mpr ht)]
      rfl

theorem getElem?_after {earlier : List Command} {sm : StateMachine} {db : Store}
    {entries : List Entry} (h : SessionsOf earlier sm)
    (hlog : forall e, e ∈ entries -> Replayable e) {key : Bytes} (hkey : ¬ Reserved key)
    (hdb : sm.db[key]? = db[key]?) :
    (sm.after entries).db[key]? = (contents earlier db entries)[key]? := by
  induction entries generalizing earlier sm db with
  | nil => exact hdb
  | cons e entries ih =>
      have hlog' : forall x, x ∈ entries -> Replayable x :=
        fun x hx => hlog x (List.mem_cons_of_mem e hx)
      change ((sm.commit e (commandOf e)).after entries).db[key]? = _
      rw [contents]
      cases hc : commandOf e with
      | none =>
          have hsessions : SessionsOf earlier (sm.commit e none) := ⟨h.upper, h.attained⟩
          apply ih hsessions hlog'
          rw [← hdb]
          apply getElem?_insert_of_ne
          rintro rfl
          exact hkey reserved_appliedKey
      | some c =>
          have hseq := ((hlog e List.mem_cons_self).commandOf hc).right
          apply ih (h.commit e c) hlog'
          rw [getElem?_commit h hseq hkey]
          split
          · exact getElem?_applyRaft_congr hdb _
          · exact hdb

/-!
## Runs with crashes
-/

/-- The running machine, and the engine after each entry since the first. -/
structure Replay where
  sm : StateMachine
  history : List Store

inductive ReplayAction where
  /-- One call of `Apply` with the next entries. -/
  | apply (count : Nat)
  /-- The engine falls back to its state after an entry, and the node restarts. -/
  | crash (index : Nat)
deriving DecidableEq

def engines (sm : StateMachine) : List Entry -> List Store
  | [] => []
  | e :: entries =>
      match sm.applyEntry e with
      | .error _ => []
      | .ok x => x.1.db :: engines x.1 entries

namespace Replay

def start : Replay where
  sm := {}
  history := [∅]

def exec (log : List Entry) (r : Replay) : ReplayAction -> Except MachineError Replay
  | .apply count => do
      let entries := (log.drop r.sm.applied).take count
      let _ <- (r.sm.apply entries).2
      pure { sm := (r.sm.apply entries).1, history := r.history ++ engines r.sm entries }
  | .crash index =>
      match r.history[index]? with
      | none => pure r
      | some db => do
          let sm <- newStateMachine db
          pure { sm := sm, history := r.history.take (index + 1) }

theorem getElem?_engines {sm : StateMachine} {entries : List Entry}
    (hnum : NumberedFrom (sm.applied + 1) entries)
    (hlog : forall e, e ∈ entries -> Replayable e) {i : Nat} (hi : i < entries.length) :
    (engines sm entries)[i]? = some (sm.after (entries.take (i + 1))).db := by
  induction entries generalizing sm i with
  | nil => exact absurd hi (Nat.not_lt_zero i)
  | cons e entries ih =>
      have hindex : e.index = sm.applied + 1 := hnum 0 e rfl
      rcases StateMachine.applyEntry_of_replayable (hlog e List.mem_cons_self) hindex with
        ⟨out, hok⟩
      rw [engines, hok]
      cases i with
      | zero => rfl
      | succ i =>
          have htail : NumberedFrom ((sm.commit e (commandOf e)).applied + 1) entries := by
            change NumberedFrom (e.index + 1) entries
            rw [hindex]
            exact hnum.tail
          exact ih htail (fun x hx => hlog x (List.mem_cons_of_mem e hx))
            (Nat.lt_of_succ_lt_succ hi)

theorem length_engines {sm : StateMachine} {entries : List Entry}
    (hnum : NumberedFrom (sm.applied + 1) entries)
    (hlog : forall e, e ∈ entries -> Replayable e) :
    (engines sm entries).length = entries.length := by
  induction entries generalizing sm with
  | nil => rfl
  | cons e entries ih =>
      have hindex : e.index = sm.applied + 1 := hnum 0 e rfl
      rcases StateMachine.applyEntry_of_replayable (hlog e List.mem_cons_self) hindex with
        ⟨out, hok⟩
      have htail : NumberedFrom ((sm.commit e (commandOf e)).applied + 1) entries := by
        change NumberedFrom (e.index + 1) entries
        rw [hindex]
        exact hnum.tail
      rw [engines, hok, List.length_cons]
      dsimp only
      rw [List.length_cons, ih htail fun x hx => hlog x (List.mem_cons_of_mem e hx)]

section

variable {log : List Entry}

def upTo (log : List Entry) (n : Nat) : StateMachine :=
  ({} : StateMachine).after (log.take n)

structure Inv (log : List Entry) (r : Replay) (n : Nat) : Prop where
  le : n ≤ log.length
  sm : r.sm = upTo log n
  length : r.history.length = n + 1
  history : forall i, i ≤ n -> r.history[i]? = some (upTo log i).db

variable (hnum : NumberedFrom 1 log) (hlog : forall e, e ∈ log -> Replayable e)

include hnum in
theorem applied_upTo {n : Nat} (hn : n ≤ log.length) : (upTo log n).applied = n := by
  have hnum' : NumberedFrom (({} : StateMachine).applied + 1) (log.take n) := hnum.take n
  rw [upTo, StateMachine.applied_after hnum', List.length_take]
  change 0 + min n log.length = n
  lia

include hnum hlog in
theorem kept_upTo (n : Nat) : Kept (upTo log n) :=
  Kept.init.after (hnum.take n) fun e he => hlog e (List.mem_of_mem_take he)

theorem upTo_add (n count : Nat) :
    upTo log (n + count) = (upTo log n).after ((log.drop n).take count) := by
  rw [upTo, upTo, ← StateMachine.after_append, ← List.take_add]

theorem Inv.start : Inv log start 0 where
  le := Nat.zero_le _
  sm := rfl
  length := rfl
  history := fun i hi => by
    rw [Nat.le_zero.mp hi]
    rfl

include hnum hlog in
theorem Inv.apply {r : Replay} {n : Nat} (h : Inv log r n) (count : Nat) :
    exists r', exec log r (.apply count) = .ok r' ∧
      Inv log r' (n + min count (log.length - n)) := by
  have happlied : r.sm.applied = n := by rw [h.sm, applied_upTo hnum h.le]
  have hnum' : NumberedFrom (r.sm.applied + 1) ((log.drop r.sm.applied).take count) := by
    have hdrop := (hnum.drop r.sm.applied).take count
    rw [Nat.add_comm] at hdrop
    exact hdrop
  have hlog' : forall e, e ∈ (log.drop r.sm.applied).take count -> Replayable e :=
    fun e he => hlog e (List.mem_of_mem_drop (List.mem_of_mem_take he))
  have hlen : ((log.drop r.sm.applied).take count).length = min count (log.length - n) := by
    rw [List.length_take, List.length_drop, happlied]
  have hcut : (log.drop n).take count = (log.drop n).take (min count (log.length - n)) := by
    rw [List.take_eq_take_iff, List.length_drop]
    lia
  rcases StateMachine.apply_eq_after hnum' hlog' with ⟨out, hok⟩
  refine ⟨{ sm := r.sm.after ((log.drop r.sm.applied).take count)
            history := r.history ++ engines r.sm ((log.drop r.sm.applied).take count) },
    ?_, ?_⟩
  · rw [exec, hok]
    rfl
  · constructor
    · have hle := h.le
      lia
    · rw [happlied, h.sm, hcut, ← upTo_add]
    · change (r.history ++ _).length = _
      rw [List.length_append, length_engines hnum' hlog', hlen, h.length]
      lia
    · intro i hi
      change (r.history ++ engines r.sm ((log.drop r.sm.applied).take count))[i]? = _
      by_cases hin : i ≤ n
      · rw [List.getElem?_append_left (by rw [h.length]; lia), h.history i hin]
      · rw [List.getElem?_append_right (by rw [h.length]; lia), h.length,
          getElem?_engines hnum' hlog' (by rw [hlen]; lia), List.take_take, happlied, h.sm,
          ← upTo_add]
        have hsum : n + min (i - (n + 1) + 1) count = i := by lia
        rw [hsum]

include hnum hlog in
theorem Inv.crash {r : Replay} {n : Nat} (h : Inv log r n) (index : Nat) :
    exists r' m, exec log r (.crash index) = .ok r' ∧ Inv log r' m := by
  by_cases hindex : index ≤ n
  · refine ⟨{ sm := upTo log index, history := r.history.take (index + 1) }, index, ?_, ?_⟩
    · rw [exec, h.history index hindex]
      dsimp only
      rw [newStateMachine_of_kept (kept_upTo hnum hlog index)]
      rfl
    · constructor
      · exact Nat.le_trans hindex h.le
      · rfl
      · change (r.history.take (index + 1)).length = index + 1
        rw [List.length_take, h.length]
        lia
      · intro i hi
        change (r.history.take (index + 1))[i]? = _
        rw [List.getElem?_take, if_pos (Nat.lt_succ_of_le hi),
          h.history i (Nat.le_trans hi hindex)]
  · refine ⟨r, n, ?_, h⟩
    rw [exec, List.getElem?_eq_none (by rw [h.length]; lia)]
    rfl

end

def sampleLog : List Entry :=
  let write := fun (client seq : UInt64) (value : UInt8) =>
    encodeCommand
      { clientID := client, seq := seq, batch := { ops := [.put [0x6b] [value]] } }
  [{ index := 1, term := 1 },
    { index := 2, term := 1, data := write 7 1 1 },
    { index := 3, term := 2, data := write 7 1 2 },
    { index := 4, term := 2, data := write (noDedupClient ||| 7) 1 3 }]

end Replay

end Engine
end Basalt
