import Basalt.Lib.Outcome
import Basalt.Raft.Types

/-!
# The in-memory log

`entries` holds the indexes `offset, offset + 1, …`; everything through
`snapIndex` is folded into a snapshot of which only the last index and term
are kept.  The order `snapIndex ≤ applied ≤ committed ≤ lastIndex` is part of
the type: every operation either keeps it or panics.
-/

namespace Basalt
namespace Raft

structure RaftLog where
  entries : List Entry
  offset : Nat
  snapIndex : Nat
  snapTerm : Nat
  committed : Nat
  applied : Nat
  offset_eq : offset = snapIndex + 1
  snapIndex_le : snapIndex ≤ applied
  applied_le : applied ≤ committed
  committed_le : committed ≤ snapIndex + entries.length

def snapshotLog (index term : Nat) : RaftLog where
  entries := []
  offset := index + 1
  snapIndex := index
  snapTerm := term
  committed := index
  applied := index
  offset_eq := rfl
  snapIndex_le := Nat.le_refl _
  applied_le := Nat.le_refl _
  committed_le := Nat.le_refl _

def newLog : RaftLog :=
  snapshotLog 0 0

namespace RaftLog

def firstIndex (l : RaftLog) : Nat :=
  l.offset

def lastIndex (l : RaftLog) : Nat :=
  l.offset + l.entries.length - 1

theorem lastIndex_eq (l : RaftLog) :
    l.lastIndex = l.snapIndex + l.entries.length := by
  have h := l.offset_eq
  rw [lastIndex]
  lia

/-- The term of an index; `none` outside the log.  The snapshot boundary keeps
its term. -/
def term (l : RaftLog) (i : Nat) : Option Nat :=
  if i = l.snapIndex then some l.snapTerm
  else if i < l.offset ∨ l.lastIndex < i then none
  else l.entries[i - l.offset]?.map Entry.term

def lastTerm (l : RaftLog) : Except Panic Nat :=
  match l.term l.lastIndex with
  | some t => .ok t
  | none => .error .lastTermUnavailable

def compactTo (l : RaftLog) (index : Nat) : Except Panic RaftLog :=
  if hsnap : index ≤ l.snapIndex then .ok l
  else if happlied : l.applied < index then
    .error (.compactBeyondApplied index l.applied)
  else
    match l.term index with
    | none => .error (.compactUnknownIndex index)
    | some t =>
        .ok
          { entries := l.entries.drop (index - l.offset + 1)
            offset := index + 1
            snapIndex := index
            snapTerm := t
            committed := l.committed
            applied := l.applied
            offset_eq := rfl
            snapIndex_le := Nat.le_of_not_lt happlied
            applied_le := l.applied_le
            committed_le := by
              have h1 := l.offset_eq
              have h2 := l.applied_le
              have h3 := l.committed_le
              rw [List.length_drop]
              lia }

/-- Adds entries at the tail; conflicts are resolved by `maybeAppend`. -/
def append (l : RaftLog) (ents : List Entry) : Except Panic RaftLog :=
  match ents with
  | [] => .ok l
  | e :: _ =>
      if e.index ≠ l.lastIndex + 1 then
        .error (.appendGap e.index (l.lastIndex + 1))
      else
        .ok
          { l with
            entries := l.entries ++ ents
            committed_le := by
              have h := l.committed_le
              rw [List.length_append]
              lia }

def truncateFrom (l : RaftLog) (i : Nat) : Except Panic RaftLog :=
  if hcommitted : i ≤ l.committed then
    .error (.truncateBelowCommitted i l.committed)
  else if i < l.offset then
    .error (.truncateBelowFirst i l.offset)
  else
    .ok
      { l with
        entries := l.entries.take (i - l.offset)
        committed_le := by
          have h1 := l.offset_eq
          have h2 := l.committed_le
          rw [List.length_take]
          lia }

def slice (l : RaftLog) (lo hi : Nat) : Except Panic (List Entry) :=
  if lo < l.offset ∨ l.lastIndex + 1 < hi ∨ hi < lo then
    .error (.sliceOutside lo hi l.offset l.lastIndex)
  else
    .ok ((l.entries.drop (lo - l.offset)).take (hi - lo))

/-- Advances the commit index; it never regresses. -/
def commitTo (l : RaftLog) (i : Nat) : Except Panic RaftLog :=
  if hle : i ≤ l.committed then .ok l
  else if hlast : l.lastIndex < i then
    .error (.commitBeyondLast i l.lastIndex)
  else
    .ok
      { l with
        committed := i
        applied_le := Nat.le_trans l.applied_le (Nat.le_of_not_le hle)
        committed_le := by
          rw [← l.lastIndex_eq]
          exact Nat.le_of_not_lt hlast }

def appliedTo (l : RaftLog) (i : Nat) : Except Panic RaftLog :=
  if h : i < l.applied ∨ l.committed < i then
    .error (.appliedOutside i l.applied l.committed)
  else
    .ok
      { l with
        applied := i
        snapIndex_le := by
          have := l.snapIndex_le
          lia
        applied_le := by lia }

/-- The loop of `maybeAppend`: skip what is there, and at the first entry that
is missing or conflicts append the rest. -/
def appendNew (l : RaftLog) : List Entry -> Except Panic RaftLog
  | [] => .ok l
  | e :: rest =>
      match l.term e.index with
      | none => l.append (e :: rest)
      | some et =>
          if et ≠ e.term then do
            let l <- l.truncateFrom e.index
            l.append (e :: rest)
          else l.appendNew rest

/-- The consistency check of an append: accepted with the last new index, or
refused with `none`. -/
def maybeAppend (l : RaftLog) (prevIndex prevTerm commit : Nat)
    (ents : List Entry) : Except Panic (Option Nat × RaftLog) :=
  if l.term prevIndex = some prevTerm then do
    let lastNew := prevIndex + ents.length
    let l <- l.appendNew ents
    let l <- l.commitTo (min commit lastNew)
    pure (some lastNew, l)
  else
    pure (none, l)

/-- The voting rule: a candidate with the given last entry is at least as
current as this log. -/
def isUpToDate (l : RaftLog) (lastIndex lastTerm : Nat) :
    Except Panic Bool := do
  let own <- l.lastTerm
  if lastTerm ≠ own then pure (decide (own < lastTerm))
  else pure (decide (l.lastIndex ≤ lastIndex))

/-!
## When the operations return
-/

theorem offset_pos (l : RaftLog) : 1 ≤ l.offset := by
  rw [l.offset_eq]
  lia

theorem committed_le_lastIndex (l : RaftLog) : l.committed ≤ l.lastIndex := by
  rw [l.lastIndex_eq]
  exact l.committed_le

theorem term_bounds {l : RaftLog} {i t : Nat} (h : l.term i = some t) :
    l.snapIndex ≤ i ∧ i ≤ l.lastIndex := by
  have hoff := l.offset_eq
  have hlast := l.lastIndex_eq
  rw [term] at h
  split at h
  · lia
  · split at h
    · cases h
    · lia

theorem term_lastIndex (l : RaftLog) : exists t, l.term l.lastIndex = some t := by
  have hoff := l.offset_eq
  have hlast := l.lastIndex_eq
  rw [term]
  split
  · exact ⟨_, rfl⟩
  · rw [if_neg (by lia)]
    have hlt : l.lastIndex - l.offset < l.entries.length := by lia
    exact ⟨l.entries[l.lastIndex - l.offset].term, by
      rw [List.getElem?_eq_getElem hlt, Option.map_some]⟩

theorem lastTerm_ok (l : RaftLog) : exists t, l.lastTerm = .ok t := by
  rcases l.term_lastIndex with ⟨t, ht⟩
  exact ⟨t, by rw [lastTerm, ht]⟩

theorem isUpToDate_ok (l : RaftLog) (i t : Nat) :
    exists b, l.isUpToDate i t = .ok b := by
  rcases l.lastTerm_ok with ⟨own, hown⟩
  rw [isUpToDate, hown]
  change exists b, (if t ≠ own then Except.ok (decide (own < t))
    else Except.ok (decide (l.lastIndex ≤ i))) = Except.ok b
  split
  · exact ⟨_, rfl⟩
  · exact ⟨_, rfl⟩

theorem commitTo_ok {l : RaftLog} {i : Nat} (h : i ≤ l.lastIndex) :
    exists l', l.commitTo i = .ok l' := by
  rw [commitTo]
  split
  · exact ⟨_, rfl⟩
  · rw [dif_neg (Nat.not_lt.mpr h)]
    exact ⟨_, rfl⟩

theorem slice_ok {l : RaftLog} {lo hi : Nat} (hlo : l.offset ≤ lo)
    (hle : lo ≤ hi) (hhi : hi ≤ l.lastIndex + 1) :
    l.slice lo hi = .ok ((l.entries.drop (lo - l.offset)).take (hi - lo)) := by
  rw [slice, if_neg (by lia)]

theorem slice_ok_of_term {l : RaftLog} {next t : Nat} (hnext : 1 ≤ next)
    (h : l.term (next - 1) = some t) :
    exists ents, l.slice next (l.lastIndex + 1) = .ok ents := by
  have hbounds := term_bounds h
  have hoff := l.offset_eq
  exact ⟨_, slice_ok (by lia) (by lia) (Nat.le_refl _)⟩

theorem not_slice_zero {l : RaftLog} {hi : Nat} {ents : List Entry} :
    l.slice 0 hi ≠ .ok ents := by
  have hpos := l.offset_pos
  rw [slice, if_pos (by lia)]
  intro h
  cases h

theorem append_ok {l : RaftLog} {es : List Entry}
    (h : forall e, es[0]? = some e -> e.index = l.lastIndex + 1) :
    exists l', l.append es = .ok l' := by
  cases es with
  | nil => exact ⟨l, rfl⟩
  | cons e es =>
      rw [append, if_neg (by simpa using h e rfl)]
      exact ⟨_, rfl⟩

/-!
## What the operations leave alone
-/

structure SameBase (l l' : RaftLog) : Prop where
  applied : l'.applied = l.applied
  snapIndex : l'.snapIndex = l.snapIndex
  snapTerm : l'.snapTerm = l.snapTerm

variable {l l' l'' : RaftLog}

theorem SameBase.refl (l : RaftLog) : SameBase l l :=
  ⟨rfl, rfl, rfl⟩

theorem SameBase.trans (h : SameBase l l') (h' : SameBase l' l'') :
    SameBase l l'' :=
  ⟨h'.applied.trans h.applied, h'.snapIndex.trans h.snapIndex,
    h'.snapTerm.trans h.snapTerm⟩

theorem sameBase_append {es : List Entry} (h : l.append es = .ok l') :
    SameBase l l' := by
  cases es with
  | nil =>
      cases h
      exact SameBase.refl l
  | cons e es =>
      rw [append] at h
      split at h
      · cases h
      · cases h
        exact ⟨rfl, rfl, rfl⟩

theorem sameBase_truncateFrom {i : Nat} (h : l.truncateFrom i = .ok l') :
    SameBase l l' := by
  rw [truncateFrom] at h
  split at h
  · cases h
  · split at h
    · cases h
    · cases h
      exact ⟨rfl, rfl, rfl⟩

theorem sameBase_commitTo {i : Nat} (h : l.commitTo i = .ok l') :
    SameBase l l' := by
  rw [commitTo] at h
  split at h
  · cases h
    exact SameBase.refl l
  · split at h
    · cases h
    · cases h
      exact ⟨rfl, rfl, rfl⟩

theorem sameBase_appendNew {es : List Entry} (h : l.appendNew es = .ok l') :
    SameBase l l' := by
  induction es with
  | nil =>
      cases h
      exact SameBase.refl l
  | cons e es ih =>
      rw [appendNew] at h
      split at h
      · exact sameBase_append h
      · split at h
        · rcases Lib.bind_eq_ok.mp h with ⟨mid, hmid, hrest⟩
          exact (sameBase_truncateFrom hmid).trans (sameBase_append hrest)
        · exact ih h

/-!
## What the operations do to the entries
-/

theorem append_entries {es : List Entry} (h : l.append es = .ok l') :
    l'.entries = l.entries ++ es ∧
      forall e, es[0]? = some e -> e.index = l.lastIndex + 1 := by
  cases es with
  | nil =>
      cases h
      exact ⟨(List.append_nil _).symm, fun e he => by cases he⟩
  | cons e es =>
      rw [append] at h
      split at h
      · cases h
      · next hidx =>
          cases h
          refine ⟨rfl, fun x hx => ?_⟩
          cases hx
          exact not_not.mp hidx

theorem truncateFrom_entries {i : Nat} (h : l.truncateFrom i = .ok l') :
    l'.entries = l.entries.take (i - l.offset) ∧ l.offset ≤ i := by
  rw [truncateFrom] at h
  split at h
  · cases h
  · split at h
    · cases h
    · next hoff =>
        cases h
        exact ⟨rfl, Nat.le_of_not_lt hoff⟩

theorem committed_append {es : List Entry} (h : l.append es = .ok l') :
    l'.committed = l.committed := by
  cases es with
  | nil =>
      cases h
      rfl
  | cons e es =>
      rw [append] at h
      split at h
      · cases h
      · cases h
        rfl

theorem committed_truncateFrom {i : Nat} (h : l.truncateFrom i = .ok l') :
    l'.committed = l.committed := by
  rw [truncateFrom] at h
  split at h
  · cases h
  · split at h
    · cases h
    · cases h
      rfl

theorem committed_commitTo {i : Nat} (h : l.commitTo i = .ok l') :
    l'.committed = max l.committed i := by
  rw [commitTo] at h
  split at h
  · next hle =>
      cases h
      exact (Nat.max_eq_left hle).symm
  · next hgt =>
      split at h
      · cases h
      · cases h
        exact (Nat.max_eq_right (Nat.le_of_not_le hgt)).symm

theorem committed_appendNew {es : List Entry} (h : l.appendNew es = .ok l') :
    l'.committed = l.committed := by
  induction es with
  | nil =>
      cases h
      rfl
  | cons e es ih =>
      rw [appendNew] at h
      split at h
      · exact committed_append h
      · split at h
        · rcases Lib.bind_eq_ok.mp h with ⟨mid, hmid, hrest⟩
          exact (committed_append hrest).trans (committed_truncateFrom hmid)
        · exact ih h

theorem commitTo_entries {i : Nat} (h : l.commitTo i = .ok l') :
    l'.entries = l.entries := by
  rw [commitTo] at h
  split at h
  · cases h
    rfl
  · split at h
    · cases h
    · cases h
      rfl

theorem appliedTo_entries {i : Nat} (h : l.appliedTo i = .ok l') :
    l'.entries = l.entries ∧ l'.snapIndex = l.snapIndex ∧ l'.applied = i := by
  rw [appliedTo] at h
  split at h
  · cases h
  · cases h
    exact ⟨rfl, rfl, rfl⟩

theorem compactTo_entries {index : Nat} (h : l.compactTo index = .ok l') :
    l' = l ∨
      (l.snapIndex < index ∧ index ≤ l.applied ∧
        l.term index = some l'.snapTerm ∧ l'.snapIndex = index ∧
        l'.applied = l.applied ∧
        l'.entries = l.entries.drop (index - l.snapIndex)) := by
  rw [compactTo] at h
  split at h
  · cases h
    exact Or.inl rfl
  · next hsnap =>
      split at h
      · cases h
      · next happlied =>
          split at h
          · cases h
          · next t hterm =>
              cases h
              refine Or.inr ⟨by lia, by lia, hterm, rfl, rfl, ?_⟩
              have hcut : index - l.offset + 1 = index - l.snapIndex := by
                have hoff := l.offset_eq
                lia
              change l.entries.drop (index - l.offset + 1) = _
              rw [hcut]

theorem mem_of_slice {lo hi : Nat} {ents : List Entry} {e : Entry}
    (h : l.slice lo hi = .ok ents) (he : e ∈ ents) : e ∈ l.entries := by
  rw [slice] at h
  split at h
  · cases h
  · cases h
    exact List.mem_of_mem_drop (List.mem_of_mem_take he)

theorem mem_appendNew {es : List Entry} {e : Entry} (h : l.appendNew es = .ok l')
    (he : e ∈ l'.entries) : e ∈ l.entries ∨ e ∈ es := by
  induction es with
  | nil =>
      cases h
      exact Or.inl he
  | cons d es ih =>
      rw [appendNew] at h
      split at h
      · rw [(append_entries h).left] at he
        exact List.mem_append.mp he
      · split at h
        · rcases Lib.bind_eq_ok.mp h with ⟨mid, hmid, hrest⟩
          rw [(append_entries hrest).left, (truncateFrom_entries hmid).left] at he
          exact (List.mem_append.mp he).imp_left List.mem_of_mem_take
        · exact (ih h).imp_right (List.mem_cons_of_mem d)

theorem maybeAppend_some {prevIndex prevTerm commit lastNew : Nat}
    {es : List Entry}
    (h : l.maybeAppend prevIndex prevTerm commit es = .ok (some lastNew, l')) :
    l.term prevIndex = some prevTerm ∧ lastNew = prevIndex + es.length ∧
      exists mid, l.appendNew es = .ok mid ∧
        mid.commitTo (min commit lastNew) = .ok l' := by
  rw [maybeAppend] at h
  split at h
  · next hterm =>
      rcases Lib.bind_eq_ok.mp h with ⟨mid, hmid, hrest⟩
      rcases Lib.bind_eq_ok.mp hrest with ⟨last, hlast, hpure⟩
      cases hpure
      exact ⟨hterm, rfl, mid, hmid, hlast⟩
  · cases h

theorem maybeAppend_none {prevIndex prevTerm commit : Nat} {es : List Entry}
    (h : l.maybeAppend prevIndex prevTerm commit es = .ok (none, l')) :
    l' = l := by
  rw [maybeAppend] at h
  split at h
  · rcases Lib.bind_eq_ok.mp h with ⟨mid, _, hrest⟩
    rcases Lib.bind_eq_ok.mp hrest with ⟨last, _, hpure⟩
    cases hpure
  · cases h
    rfl

theorem sameBase_maybeAppend {prevIndex prevTerm commit lastNew : Nat}
    {es : List Entry}
    (h : l.maybeAppend prevIndex prevTerm commit es = .ok (some lastNew, l')) :
    SameBase l l' := by
  rcases maybeAppend_some h with ⟨_, _, mid, hmid, hlast⟩
  exact (sameBase_appendNew hmid).trans (sameBase_commitTo hlast)

end RaftLog

end Raft
end Basalt
