import Basalt.Raft.Operations
import Basalt.Raft.Storage

/-!
# The persisted part of a log

A node takes its log for persisted up to the index `stabled`.  A stored state
backs the log when it agrees with it up to there.  The transitions of a node
keep this, with one exception: an append that is accepted and conflicts with a
persisted entry.
-/

namespace Basalt
namespace Raft

open Lib Relation

/-!
## Changes of the log above a persisted prefix
-/

/-- A change of the log that keeps its first `k` entries, and leaves more than
these unless there were no more. -/
structure RaftLog.Grows (k : Nat) (l l' : RaftLog) : Prop where
  base : RaftLog.SameBase l l'
  numbered : NumberedFrom (l.snapIndex + 1) l'.entries
  take_eq : l'.entries.take k = l.entries.take k
  length_le : k ≤ l'.entries.length
  shrinks : l'.entries.length = k -> l.entries.length = k

namespace RaftLog

variable {k : Nat} {l l' l'' : RaftLog}

theorem Grows.refl (hnum : NumberedFrom (l.snapIndex + 1) l.entries)
    (hk : k ≤ l.entries.length) : Grows k l l where
  base := SameBase.refl l
  numbered := hnum
  take_eq := rfl
  length_le := hk
  shrinks := fun h => h

theorem Grows.commitTo (h : Grows k l l') {i : Nat} (hok : l'.commitTo i = .ok l'') :
    Grows k l l'' := by
  have hsame := commitTo_entries hok
  constructor
  · exact h.base.trans (sameBase_commitTo hok)
  · rw [hsame]
    exact h.numbered
  · rw [hsame]
    exact h.take_eq
  · rw [hsame]
    exact h.length_le
  · rw [hsame]
    exact h.shrinks

variable (hnum : NumberedFrom (l.snapIndex + 1) l.entries)
variable (hk : k ≤ l.entries.length)
include hnum hk

theorem Grows.append {es : List Entry} {first : Nat}
    (hes : NumberedFrom first es) (hok : l.append es = .ok l') :
    Grows k l l' := by
  rcases append_entries hok with ⟨hents, hfirst⟩
  have hlast := l.lastIndex_eq
  constructor
  · exact sameBase_append hok
  · rw [hents]
    refine hnum.append fun i e hi => ?_
    cases es with
    | nil => cases hi
    | cons x es =>
        have hx := hfirst x rfl
        have h0 := hes 0 x rfl
        have hidx := hes i e hi
        lia
  · rw [hents, List.take_append_of_le_length hk]
  · rw [hents, List.length_append]
    lia
  · rw [hents, List.length_append]
    lia

theorem Grows.appendNew {es : List Entry} {first : Nat}
    (hes : NumberedFrom first es)
    (hagree : forall e, e ∈ es -> e.index ≤ l.snapIndex + k ->
      forall t, l.term e.index = some t -> t = e.term)
    (hok : l.appendNew es = .ok l') : Grows k l l' := by
  induction es generalizing first with
  | nil =>
      cases hok
      exact Grows.refl hnum hk
  | cons e es ih =>
      rw [RaftLog.appendNew] at hok
      split at hok
      · exact Grows.append hnum hk hes hok
      · next et hterm =>
          split at hok
          · next hconflict =>
              rcases bind_eq_ok.mp hok with ⟨mid, hmid, hrest⟩
              rcases truncateFrom_entries hmid with ⟨hcut, hoff⟩
              have habove : l.snapIndex + k < e.index := by
                by_contra hle
                exact hconflict
                  (hagree e List.mem_cons_self (Nat.le_of_not_lt hle) et hterm)
              have hbounds := term_bounds hterm
              have hlast := l.lastIndex_eq
              have hoffset := l.offset_eq
              have hbase := sameBase_truncateFrom hmid
              have hlen : mid.entries.length = e.index - l.offset := by
                rw [hcut, List.length_take]
                lia
              have hmidnum : NumberedFrom (mid.snapIndex + 1) mid.entries := by
                rw [hbase.snapIndex, hcut]
                exact hnum.take _
              have hrestGrows : Grows k mid l' :=
                Grows.append hmidnum (by lia) hes hrest
              have htake : mid.entries.take k = l.entries.take k := by
                rw [hcut, List.take_take, Nat.min_eq_left (by lia)]
              have hmore : mid.entries.length < l'.entries.length := by
                rw [(append_entries hrest).left, List.length_append, List.length_cons]
                lia
              constructor
              · exact hbase.trans hrestGrows.base
              · rw [← hbase.snapIndex]
                exact hrestGrows.numbered
              · exact hrestGrows.take_eq.trans htake
              · exact hrestGrows.length_le
              · intro heq
                lia
          · exact ih hes.tail
              (fun x hx => hagree x (List.mem_cons_of_mem e hx)) hok

omit hnum in
theorem Grows.term_eq (h : Grows k l l') {i : Nat} (hi : i ≤ l.snapIndex + k) :
    l'.term i = l.term i := by
  have hsnap := h.base.snapIndex
  have hoff := l.offset_eq
  have hoff' := l'.offset_eq
  have hlast := l.lastIndex_eq
  have hlast' := l'.lastIndex_eq
  have hlen' := h.length_le
  rw [RaftLog.term, RaftLog.term, hsnap, h.base.snapTerm]
  by_cases heq : i = l.snapIndex
  · rw [if_pos heq, if_pos heq]
  · rw [if_neg heq, if_neg heq]
    by_cases hlow : i < l.offset
    · rw [if_pos (Or.inl (by lia)), if_pos (Or.inl hlow)]
    · rw [if_neg (by lia), if_neg (by lia)]
      have hget : l'.entries[i - l'.offset]? = l.entries[i - l.offset]? := by
        have hpos : i - l'.offset < k := by lia
        have hpos' : i - l.offset < k := by lia
        have hsame : i - l'.offset = i - l.offset := by lia
        rw [← List.getElem?_take_of_lt hpos', ← h.take_eq, hsame,
          List.getElem?_take_of_lt hpos']
      rw [hget]

end RaftLog

/-!
## The persisted prefix of a node
-/

/-- The stored state `rec` backs a log up to the index `stabled`. -/
structure Backed (log : RaftLog) (stabled : Nat) (rec : Recovered) : Prop where
  snapIndex_eq : rec.snapIndex = log.snapIndex
  numbered : NumberedFrom (log.snapIndex + 1) log.entries
  applied_le : log.applied ≤ stabled
  stabled_le : stabled ≤ log.lastIndex
  stored_le : stabled ≤ rec.snapIndex + rec.entries.length
  take_eq : rec.entries.take (stabled - log.snapIndex) =
    log.entries.take (stabled - log.snapIndex)
  complete : stabled = log.lastIndex -> rec.entries.length = log.entries.length

/-- An append that is accepted and overwrites nothing that is persisted. -/
def Core.Respects (c : Core) (m : Message) : Prop :=
  m.type = .app -> c.term ≤ m.term -> c.log.term m.logIndex = some m.logTerm ->
    forall e, e ∈ m.entries -> e.index ≤ c.stabled ->
      c.log.term e.index = none ∨ c.log.term e.index = some e.term

def Message.WellFormed (m : Message) : Prop :=
  m.type = .app -> NumberedFrom (m.logIndex + 1) m.entries

theorem Move.term_le {inp : Input} {c c' : Core} (h : Move inp c c') :
    c.term ≤ c'.term := by
  cases h with
  | adopt hlt => exact Nat.le_of_lt hlt
  | campaign => exact Nat.le_succ _
  | _ => exact Nat.le_refl _

namespace Backed

variable {log log' : RaftLog} {stabled : Nat} {rec : Recovered}

theorem snap_le (h : Backed log stabled rec) : log.snapIndex ≤ stabled :=
  Nat.le_trans log.snapIndex_le h.applied_le

theorem length_le (h : Backed log stabled rec) :
    stabled - log.snapIndex ≤ log.entries.length := by
  have hle := h.stabled_le
  have hlast := log.lastIndex_eq
  lia

theorem grows (h : Backed log stabled rec)
    (hg : RaftLog.Grows (stabled - log.snapIndex) log log') :
    Backed log' stabled rec := by
  have hsnap := hg.base.snapIndex
  have hle := h.snap_le
  have hlast := log.lastIndex_eq
  have hlast' := log'.lastIndex_eq
  have hlen := hg.length_le
  constructor
  · exact h.snapIndex_eq.trans hsnap.symm
  · rw [hsnap]
    exact hg.numbered
  · rw [hg.base.applied]
    exact h.applied_le
  · lia
  · exact h.stored_le
  · rw [hsnap, hg.take_eq]
    exact h.take_eq
  · intro heq
    have hsame := hg.shrinks (by lia)
    rw [h.complete (by lia)]
    lia

end Backed

section Moves

variable {inp : Input} {c c' : Core} {rec : Recovered}

/-- Every transition keeps the persisted prefix. -/
theorem Move.grows (h : Backed c.log c.stabled rec)
    (hin : forall m, inp.message = some m -> m.WellFormed ∧ c.Respects m)
    (hmove : Move inp c c') :
    RaftLog.Grows (c.stabled - c.log.snapIndex) c.log c'.log := by
  have hrefl := RaftLog.Grows.refl h.numbered h.length_le
  cases hmove with
  | append hrole hes hlog =>
      exact RaftLog.Grows.append h.numbered h.length_le
        (fun i e hi => (hes i e hi).left) hlog
  | commit hrole hcount hterm hlog => exact hrefl.commitTo hlog
  | accept hm htype hterm hrole happ =>
      rcases hin _ hm with ⟨hform, hrespects⟩
      rcases RaftLog.maybeAppend_some happ with ⟨hprev, _, mid, hmid, hlast⟩
      have hsnap := h.snap_le
      refine RaftLog.Grows.commitTo ?_ hlast
      refine RaftLog.Grows.appendNew h.numbered h.length_le (hform htype) ?_ hmid
      intro e he hle t ht
      rcases hrespects htype (Nat.le_of_eq hterm.symm) hprev e he (by lia) with
        hnone | hsome
      · rw [hnone] at ht
        cases ht
      · rw [hsome] at ht
        cases ht
        rfl
  | _ => exact hrefl

theorem Core.Respects.move {m : Message} (h : Backed c.log c.stabled rec)
    (hform : m.WellFormed) (hr : c.Respects m)
    (hg : RaftLog.Grows (c.stabled - c.log.snapIndex) c.log c'.log)
    (hstabled : c'.stabled = c.stabled) (hterm : c.term ≤ c'.term) :
    c'.Respects m := by
  have hsnap := h.snap_le
  intro htype hle hprev e he hidx
  rw [hstabled] at hidx
  have hsame : c'.log.term e.index = c.log.term e.index :=
    hg.term_eq h.length_le (by lia)
  have hbelow : m.logIndex ≤ c.stabled := by
    rcases List.getElem?_of_mem he with ⟨i, hi⟩
    have := hform htype i e hi
    lia
  have hprev' : c'.log.term m.logIndex = c.log.term m.logIndex :=
    hg.term_eq h.length_le (by lia)
  rw [hsame]
  exact hr htype (Nat.le_trans hterm hle) (hprev'.symm.trans hprev) e he hidx

theorem Backed.moves (h : Backed c.log c.stabled rec)
    (hin : forall m, inp.message = some m -> m.WellFormed ∧ c.Respects m)
    (hmoves : Moves inp c c') : Backed c'.log c'.stabled rec := by
  have hall : Backed c'.log c'.stabled rec ∧
      forall m, inp.message = some m -> m.WellFormed ∧ c'.Respects m := by
    induction hmoves with
    | refl => exact ⟨h, hin⟩
    | tail _ hlast ih =>
        rcases ih with ⟨hbacked, hin'⟩
        have hg := Move.grows hbacked hin' hlast
        have hstabled := hlast.sameBase.right
        constructor
        · rw [hstabled]
          exact hbacked.grows hg
        · intro m hm
          rcases hin' m hm with ⟨hform, hr⟩
          exact ⟨hform, hr.move hbacked hform hg hstabled hlast.term_le⟩
  exact hall.left

end Moves

/-!
## Calls that do not touch the file
-/

def Core.lasting (c : Core) : Nat × Role × Nat × Nat × RaftLog × Nat :=
  (c.id, c.role, c.term, c.vote, c.log, c.stabled)

namespace Node

variable {n n' : Node}

def SameButMembers (n n' : Node) : Prop :=
  exists voters learners nextIndex matchIndex, n'.core =
    { n.core with
      voters := voters
      learners := learners
      nextIndex := nextIndex
      matchIndex := matchIndex }

theorem SameButMembers.refl (n : Node) : SameButMembers n n :=
  ⟨n.voters, n.learners, n.nextIndex, n.matchIndex, rfl⟩

theorem SameButMembers.trans {n'' : Node} (h : SameButMembers n n')
    (h' : SameButMembers n' n'') : SameButMembers n n'' := by
  rcases h with ⟨_, _, _, _, heq⟩
  rcases h' with ⟨voters, learners, nextIndex, matchIndex, heq'⟩
  rw [heq] at heq'
  exact ⟨voters, learners, nextIndex, matchIndex, heq'⟩

theorem sameButMembers_initProgress (n : Node) (id : Nat) :
    SameButMembers n (n.initProgress id) := by
  rw [initProgress]
  split
  · exact SameButMembers.refl n
  · split
    · exact SameButMembers.refl n
    · exact ⟨_, _, _, _, rfl⟩

theorem sameButMembers_applyConfChange (n : Node) (cc : ConfChange) :
    SameButMembers n (n.applyConfChange cc) := by
  rw [applyConfChange]
  split
  · exact SameButMembers.trans ⟨_, _, _, _, rfl⟩ (sameButMembers_initProgress _ _)
  · split
    · exact SameButMembers.refl n
    · exact SameButMembers.trans ⟨_, _, _, _, rfl⟩ (sameButMembers_initProgress _ _)
  · exact ⟨_, _, _, _, rfl⟩
  · exact SameButMembers.refl n

theorem sameButMembers_foldl (es : List Entry) (n : Node) :
    SameButMembers n (es.foldl applyConfEntry n) := by
  induction es generalizing n with
  | nil => exact SameButMembers.refl n
  | cons e es ih =>
      have hone : SameButMembers n (n.applyConfEntry e) := by
        rw [applyConfEntry]
        split
        · split
          · exact sameButMembers_applyConfChange n _
          · exact SameButMembers.refl n
        · exact SameButMembers.refl n
      exact hone.trans (ih _)

theorem SameButMembers.lasting (h : SameButMembers n n') :
    n'.core.lasting = n.core.lasting := by
  rcases h with ⟨_, _, _, _, heq⟩
  rw [heq]
  rfl

end Node

theorem backed_of_lasting {c c' : Core} {rec : Recovered}
    (h : c'.lasting = c.lasting) (hb : Backed c.log c.stabled rec) :
    Backed c'.log c'.stabled rec := by
  have hlog : c'.log = c.log := congrArg (fun x => x.2.2.2.2.1) h
  have hstabled : c'.stabled = c.stabled := congrArg (fun x => x.2.2.2.2.2) h
  rw [hlog, hstabled]
  exact hb

section Feed

variable {n n' : Node} {rec : Recovered} (h : Backed n.log n.stabled rec)
include h

theorem Backed.quiet {α : Type} {view : α -> Core} {post : α -> Prop}
    {x : Except Panic α} {a : α}
    (hx : Outcome (Move {}) (Stuck {}) n.core view post x) (ha : x = .ok a) :
    Backed (view a).log (view a).stabled rec :=
  Backed.moves (c := n.core) h (fun _ hm => by cases hm) (hx.returned ha).left

theorem Backed.readIndex {id : Nat} {x : Bool × Node}
    (hx : n.readIndex id = .ok x) : Backed x.2.log x.2.stabled rec := by
  rcases Node.readIndex_effect (n := n) {} id with hfalse | ⟨_, _, heffect⟩
  · rw [hfalse] at hx
    cases hx
    exact h
  · have hqueued : Backed (n.core.queueRead id).log (n.core.queueRead id).stabled rec := h
    exact hqueued.moves (fun _ hm => by cases hm) (heffect.returned hx).left

theorem Backed.message {m : Message} (hform : m.WellFormed)
    (hr : n.core.Respects m) {x : Option ProposeError × Node}
    (hx : n.step m = .ok x) : Backed x.2.log x.2.stabled rec := by
  refine Backed.moves (c := n.core) h ?_ (Node.step_input_effect.returned hx).left
  intro m' hm'
  cases hm'
  exact ⟨hform, hr⟩

theorem Backed.proposal {m : Message} (hprop : m.type = .prop)
    {x : Option ProposeError × Node} (hx : n.step m = .ok x) :
    Backed x.2.log x.2.stabled rec := by
  refine h.message ?_ ?_ hx
  · intro htype
    rw [hprop] at htype
    cases htype
  · intro htype
    rw [hprop] at htype
    cases htype

theorem Backed.proposeConfChange {cc : ConfChange} {x : Option ProposeError × Node}
    (hx : n.proposeConfChange cc = .ok x) : Backed x.2.log x.2.stabled rec := by
  rw [Node.proposeConfChange] at hx
  split at hx
  · cases hx
    exact h
  · next hrole =>
      split at hx
      · cases hx
        exact h
      · rcases bind_eq_ok.mp hx with ⟨log, hlog, hx⟩
        rcases bind_eq_ok.mp hx with ⟨y, hy, hx⟩
        rcases bind_eq_ok.mp hx with ⟨n2, hn2, hpure⟩
        cases hpure
        have hlast := n.log.lastIndex_eq
        have hone : NumberedFrom (n.log.lastIndex + 1)
            [{ type := .confChange, index := n.log.lastIndex + 1, term := n.term,
               data := cc.encode }] := by
          intro i e hi
          cases i with
          | zero =>
              cases hi
              rfl
          | succ i => cases hi
        have happended := h.grows
          (RaftLog.Grows.append h.numbered h.length_le hone hlog)
        let next : Node := { n with log := log, pendingConfIndex := n.log.lastIndex + 1 }
        have hcommit : EffectOf {} next.core (fun r => Node.Keeps next r.2)
            next.maybeCommit := Node.maybeCommit_effect
        have hbacked := Backed.quiet (n := next) happended hcommit hy
        have hleader : y.2.role = .leader :=
          (Node.Keeps.role (hcommit.returned hy).right).trans (not_not.mp hrole)
        exact hbacked.quiet (Node.bcastAppend_effect hleader) hn2

end Feed

/-!
## Draining
-/

def Node.InRange (n : Node) : Prop :=
  n.term < rangeLE 8 ∧ n.vote < rangeLE 8 ∧ n.log.lastIndex < rangeLE 8 ∧
    n.log.snapTerm < rangeLE 8 ∧ forall e, e ∈ n.log.entries -> e.term < rangeLE 8

theorem Node.InRange.hardState {n : Node} (h : n.InRange) : n.hardState.InRange := by
  rcases h with ⟨hterm, hvote, hlast, _⟩
  exact ⟨hterm, hvote, Nat.lt_of_le_of_lt n.log.committed_le_lastIndex hlast⟩

theorem Node.InRange.entries {n : Node} (h : n.InRange)
    (hnum : NumberedFrom (n.log.snapIndex + 1) n.log.entries) {e : Entry}
    (he : e ∈ n.log.entries) : e.InRange := by
  rcases h with ⟨_, _, hlast, _, hterms⟩
  rcases List.getElem?_of_mem he with ⟨i, hi⟩
  have hidx := hnum i e hi
  have hlt : i < n.log.entries.length := (List.getElem?_eq_some_iff.mp hi).choose
  have hlastIndex := n.log.lastIndex_eq
  exact ⟨by lia, hterms e he⟩

theorem RaftLog.term_cases {l : RaftLog} {i t : Nat} (h : l.term i = some t) :
    t = l.snapTerm ∨ exists e, e ∈ l.entries ∧ e.term = t := by
  rw [RaftLog.term] at h
  split at h
  · cases h
    exact Or.inl rfl
  · split at h
    · cases h
    · rcases Option.map_eq_some_iff.mp h with ⟨e, he, hterm⟩
      exact Or.inr ⟨e, List.mem_of_getElem? he, hterm⟩

theorem RaftLog.compactTo_tail {l l' : RaftLog} {index : Nat}
    (hnum : NumberedFrom (l.snapIndex + 1) l.entries)
    (h : l.compactTo index = .ok l') :
    NumberedFrom (l'.snapIndex + 1) l'.entries ∧ l'.lastIndex = l.lastIndex ∧
      l'.applied = l.applied ∧ (forall e, e ∈ l'.entries -> e ∈ l.entries) ∧
      (l'.snapTerm = l.snapTerm ∨ exists e, e ∈ l.entries ∧ e.term = l'.snapTerm) := by
  rcases compactTo_entries h with rfl | ⟨hlt, hle, hterm, hsnap, happlied, hents⟩
  · exact ⟨hnum, rfl, rfl, fun _ he => he, Or.inl rfl⟩
  · have hlast := l.lastIndex_eq
    have hlast' := l'.lastIndex_eq
    have hbound := Nat.le_trans l.applied_le l.committed_le_lastIndex
    refine ⟨?_, ?_, happlied, ?_, term_cases hterm⟩
    · rw [hents, hsnap]
      have hdrop := hnum.drop (index - l.snapIndex)
      have hfirst : l.snapIndex + 1 + (index - l.snapIndex) = index + 1 := by lia
      rwa [hfirst] at hdrop
    · rw [hents, List.length_drop] at hlast'
      lia
    · intro e he
      rw [hents] at he
      exact List.mem_of_mem_drop he

namespace Backed

variable {n n' : Node} {rec : Recovered}

/-- A stored state that agrees with the whole log. -/
theorem full {log : RaftLog} (hsnap : rec.snapIndex = log.snapIndex)
    (hents : rec.entries = log.entries)
    (hnum : NumberedFrom (log.snapIndex + 1) log.entries) :
    Backed log log.lastIndex rec where
  snapIndex_eq := hsnap
  numbered := hnum
  applied_le := Nat.le_trans log.applied_le log.committed_le_lastIndex
  stabled_le := Nat.le_refl _
  stored_le := by
    rw [hsnap, hents, log.lastIndex_eq]
  take_eq := by rw [hents]
  complete := fun _ => by rw [hents]

theorem unstableEntries_eq (h : Backed n.log n.stabled rec) :
    n.unstableEntries = .ok (n.log.entries.drop (n.stabled - n.log.snapIndex)) := by
  have hoff := n.log.offset_eq
  have hlast := n.log.lastIndex_eq
  have hsnap := h.snap_le
  have hle := h.stabled_le
  rw [Node.unstableEntries]
  split
  · rw [RaftLog.slice_ok (by lia) (by lia) (Nat.le_refl _)]
    have hcut : n.stabled + 1 - n.log.offset = n.stabled - n.log.snapIndex := by lia
    rw [hcut, List.take_of_length_le (by rw [List.length_drop]; lia)]
  · rw [List.drop_eq_nil_of_le (by lia)]
    rfl

theorem nextCommitted_le (h : Backed n.log n.stabled rec) {ents : List Entry}
    (hok : n.nextCommitted = .ok ents) {e : Entry} (he : e ∈ ents) :
    e ∈ n.log.entries ∧ e.index ≤ n.stabled := by
  have hoff := n.log.offset_eq
  have hsnap := n.log.snapIndex_le
  have hlast := n.log.committed_le_lastIndex
  rw [Node.nextCommitted] at hok
  split at hok
  · rw [RaftLog.slice_ok (by lia) (by lia) (by lia)] at hok
    cases hok
    refine ⟨List.mem_of_mem_drop (List.mem_of_mem_take he), ?_⟩
    rcases List.getElem?_of_mem he with ⟨i, hi⟩
    have hlt := (List.getElem?_eq_some_iff.mp hi).choose
    rw [List.length_take] at hlt
    have hidx := ((h.numbered.drop _).take _) i e hi
    lia
  · cases hok
    cases he

theorem advanceStable (hsnap : rec.snapIndex = n.log.snapIndex)
    (hents : rec.entries = n.log.entries)
    (hnum : NumberedFrom (n.log.snapIndex + 1) n.log.entries)
    (hle : n.log.snapIndex ≤ n.stabled ∧ n.stabled ≤ n.log.lastIndex)
    (hok : n.advanceStable
      (n.log.entries.drop (n.stabled - n.log.snapIndex)) = .ok n') :
    Backed n'.log n'.stabled rec ∧ n'.stabled = n.log.lastIndex := by
  have hlast := n.log.lastIndex_eq
  have hfull := full hsnap hents hnum
  rw [Node.advanceStable] at hok
  split at hok
  · next hnone =>
      cases hok
      have hnil := List.getLast?_eq_none_iff.mp hnone
      have hlen := congrArg List.length hnil
      rw [List.length_drop, List.length_nil] at hlen
      have heq : n.stabled = n.log.lastIndex := by lia
      rw [heq]
      exact ⟨hfull, rfl⟩
  · next e hsome =>
      rcases bind_eq_ok.mp hok with ⟨x, hx, hpure⟩
      cases hpure
      have hidx : e.index = n.log.lastIndex := by
        rw [List.getLast?_eq_getElem?] at hsome
        have hlt := (List.getElem?_eq_some_iff.mp hsome).choose
        have hdrop := (hnum.drop _) _ e hsome
        rw [List.length_drop] at hdrop hlt
        lia
      rw [hidx] at hx
      let next : Node := { n with stabled := n.log.lastIndex }
      have hcommit : EffectOf {} next.core (fun r => Node.Keeps next r.2)
          next.maybeCommit := Node.maybeCommit_effect
      refine ⟨Backed.quiet (n := next) hfull hcommit hx, ?_⟩
      exact (Moves.sameBase (hcommit.returned hx).left).right

theorem advanceApplied (h : Backed n.log n.stabled rec) {ents : List Entry}
    (hents : forall e, e ∈ ents -> e.index ≤ n.stabled)
    (hok : n.advanceApplied ents = .ok n') : Backed n'.log n'.stabled rec := by
  rw [Node.advanceApplied] at hok
  split at hok
  · cases hok
    exact h
  · next e hsome =>
      rcases bind_eq_ok.mp hok with ⟨log, hlog, hpure⟩
      cases hpure
      have hkeep := (Node.sameButMembers_foldl ents n).lasting
      have hbacked := backed_of_lasting hkeep (c := n.core) h
      have hstabled : (ents.foldl Node.applyConfEntry n).stabled = n.stabled :=
        congrArg (fun x => x.2.2.2.2.2) hkeep
      rcases RaftLog.appliedTo_entries hlog with ⟨hsame, hbase, happlied⟩
      have hlast : log.lastIndex =
          (ents.foldl Node.applyConfEntry n).log.lastIndex := by
        rw [RaftLog.lastIndex_eq, RaftLog.lastIndex_eq, hsame, hbase]
      constructor
      · exact hbacked.snapIndex_eq.trans hbase.symm
      · change NumberedFrom (log.snapIndex + 1) log.entries
        rw [hsame, hbase]
        exact hbacked.numbered
      · change log.applied ≤ (ents.foldl Node.applyConfEntry n).stabled
        rw [happlied, hstabled]
        exact hents e (List.mem_of_getLast? hsome)
      · change (ents.foldl Node.applyConfEntry n).stabled ≤ log.lastIndex
        rw [hlast]
        exact hbacked.stabled_le
      · exact hbacked.stored_le
      · change rec.entries.take (_ - log.snapIndex) = log.entries.take (_ - log.snapIndex)
        rw [hsame, hbase]
        exact hbacked.take_eq
      · change (ents.foldl Node.applyConfEntry n).stabled = log.lastIndex ->
          rec.entries.length = log.entries.length
        rw [hsame, hlast]
        exact hbacked.complete

end Backed

/-!
## Restarting
-/

theorem Node.lasting_replayConfEntry (n : Node) (i : Nat) (e : Entry) :
    (n.replayConfEntry i e).core.lasting = n.core.lasting := by
  unfold Node.replayConfEntry
  split
  · split
    · dsimp only
      split
      · exact (sameButMembers_applyConfChange _ _).lasting
      · exact (sameButMembers_applyConfChange _ _).lasting
    · rfl
  · rfl

theorem Node.lasting_foldl_replayConfEntry (offset : Nat) (es : List (Entry × Nat)) (n : Node) :
    (es.foldl (fun n x => n.replayConfEntry (offset + x.2) x.1) n).core.lasting =
      n.core.lasting := by
  induction es generalizing n with
  | nil => rfl
  | cons e es ih => exact (ih _).trans (lasting_replayConfEntry n _ _)

theorem Node.recoveredLog_eq {rec : Recovered} {log : RaftLog}
    (h : recoveredLog rec = .ok log) :
    log.snapIndex = rec.snapIndex ∧ log.entries = rec.entries := by
  rcases bind_eq_ok.mp h with ⟨mid, hmid, hcommit⟩
  have hbase := (RaftLog.sameBase_append hmid).trans (RaftLog.sameBase_commitTo hcommit)
  have hents := (RaftLog.commitTo_entries hcommit).trans (RaftLog.append_entries hmid).left
  rw [hbase.snapIndex, hents]
  split
  · exact ⟨rfl, rfl⟩
  · next hzero => exact ⟨by change 0 = rec.snapIndex; lia, rfl⟩

/-- A restored node takes the whole recovered log for persisted. -/
theorem Node.restoreNode_lasting {cfg : Config} {rec : Recovered}
    {appliedIndex : Nat} {n : Node} (h : restoreNode cfg rec appliedIndex = .ok n) :
    exists log : RaftLog, log.snapIndex = rec.snapIndex ∧ log.entries = rec.entries ∧
      n.core.lasting = (cfg.id, .follower, rec.hardState.term, rec.hardState.vote,
        log, log.lastIndex) := by
  rw [restoreNode, newNode] at h
  split at h
  · cases h
  · rcases bind_eq_ok.mp h with ⟨log, hlog, h⟩
    rcases recoveredLog_eq hlog with ⟨hsnap, hents⟩
    split at h
    · cases h
    · next hcommit =>
        split at h
        · cases h
        · next hbelow =>
            cases h
            refine ⟨{ log with
              applied := appliedIndex
              snapIndex_le := Nat.le_of_not_lt hbelow
              applied_le := Nat.le_of_not_lt hcommit }, hsnap, hents, ?_⟩
            rw [core_resetElectionTimer]
            exact lasting_foldl_replayConfEntry log.offset log.entries.zipIdx _

end Raft
end Basalt
