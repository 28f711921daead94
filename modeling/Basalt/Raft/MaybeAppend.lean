import Basalt.Raft.Log
import Basalt.Raft.Storage

/-!
# Appends to a follower's log

An append is compared with the log entry by entry.  What the log already has is
left alone, and the first entry that is missing or has another term replaces
everything from there on; an old message therefore never cuts off newer entries
that agree with it.

The comparison is by terms.  An entry that the log has under the same index and
term stays, whatever its data are.
-/

namespace Basalt
namespace Raft

open Lib

namespace RaftLog

variable {l l' : RaftLog}

def Conflicts (l : RaftLog) (ents : List Entry) : Prop :=
  exists e, e ∈ ents ∧ exists t, l.term e.index = some t ∧ t ≠ e.term

/-- The log and the entries, which start at position `p` of the log, have the
same entry wherever they have one of the same term. -/
def Agrees (l : RaftLog) (p : Nat) (ents : List Entry) : Prop :=
  forall k d e, l.entries[p + k]? = some d -> ents[k]? = some e -> d.term = e.term -> d = e

/-- What an append of entries at position `p` makes of the log: its entries stay up to
the first one, the `m`th, that the log lacks or has with another term; from there on
they are new, and what the log has behind them stays unless some entry conflicted. -/
structure Spliced (l : RaftLog) (p : Nat) (ents : List Entry) (m : Nat) (l' : RaftLog) :
    Prop where
  le : m ≤ ents.length
  held : forall k e, k < m -> ents[k]? = some e ->
    exists d, l.entries[p + k]? = some d ∧ d.term = e.term
  first : forall d e, l.entries[p + m]? = some d -> ents[m]? = some e -> d.term ≠ e.term
  kept : ¬ l.Conflicts ents ->
    l'.entries = l.entries.take (p + m) ++ (ents.drop m ++ l.entries.drop (p + ents.length))
  cut : l.Conflicts ents -> l'.entries = l.entries.take (p + m) ++ ents.drop m

/-!
## Terms
-/

theorem term_above {i : Nat} (h : l.snapIndex < i) :
    l.term i = l.entries[i - l.offset]?.map Entry.term := by
  have hoff := l.offset_eq
  have hlast := l.lastIndex_eq
  unfold term
  rw [if_neg (by lia)]
  split
  · next hout =>
      rw [List.getElem?_eq_none (by lia)]
      rfl
  · rfl

theorem term_none_of_lt {i : Nat} (h : l.lastIndex < i) : l.term i = none := by
  have hlast := l.lastIndex_eq
  unfold term
  rw [if_neg (by lia), if_pos (Or.inr h)]

theorem lastIndex_le_of_term_none {i : Nat} (h : l.term i = none) (hsnap : l.snapIndex < i) :
    l.lastIndex < i := by
  have hoff := l.offset_eq
  have hlast := l.lastIndex_eq
  by_contra hin
  have hlt : i - l.offset < l.entries.length := by lia
  rw [term_above hsnap, List.getElem?_eq_getElem hlt] at h
  cases h

theorem conflicts_cons_of_term {e : Entry} {ents : List Entry}
    (h : l.term e.index = some e.term) : l.Conflicts (e :: ents) <-> l.Conflicts ents := by
  constructor
  · rintro ⟨d, hd, t, ht, hne⟩
    rcases List.mem_cons.mp hd with rfl | hd
    · rw [h] at ht
      cases ht
      exact absurd rfl hne
    · exact ⟨d, hd, t, ht, hne⟩
  · rintro ⟨d, hd, hrest⟩
    exact ⟨d, List.mem_cons_of_mem e hd, hrest⟩

theorem not_conflicts_beyond {first : Nat} {ents : List Entry} (hnum : NumberedFrom first ents)
    (h : l.lastIndex < first) : ¬ l.Conflicts ents := by
  rintro ⟨e, he, t, ht, _⟩
  rcases List.mem_iff_getElem?.mp he with ⟨i, hi⟩
  have hindex := hnum i e hi
  rw [term_none_of_lt (by lia)] at ht
  cases ht

/-!
## The loop
-/

theorem truncateFrom_of_lt {i : Nat} (hcommitted : l.committed < i) (hoff : l.offset ≤ i) :
    exists l', l.truncateFrom i = .ok l' ∧ l'.committed = l.committed := by
  unfold truncateFrom
  rw [dif_neg (by lia), if_neg (by lia)]
  exact ⟨_, rfl, rfl⟩

theorem term_at {i p : Nat} (h : i = l.offset + p) :
    l.term i = l.entries[p]?.map Entry.term := by
  have hoff := l.offset_eq
  rw [term_above (by lia), h, Nat.add_sub_cancel_left]

theorem Spliced.nil (l : RaftLog) (p : Nat) : Spliced l p [] 0 l where
  le := Nat.le_refl _
  held := fun k _ hk => absurd hk (Nat.not_lt_zero k)
  first := fun _ _ _ hnone => by cases hnone
  kept := fun _ => (List.take_append_drop _ _).symm
  cut := fun ⟨_, he, _⟩ => by cases he

theorem Spliced.appended {ents : List Entry} (hl' : l.append ents = .ok l')
    (hno : ¬ l.Conflicts ents) : Spliced l l.entries.length ents 0 l' where
  le := Nat.zero_le _
  held := fun k _ hk => absurd hk (Nat.not_lt_zero k)
  first := by
    intro d _ hd
    rw [List.getElem?_eq_none (by lia)] at hd
    cases hd
  kept := by
    intro _
    rw [(append_entries hl').left, List.take_of_length_le (by lia), List.drop_zero,
      List.drop_eq_nil_of_le (by lia), List.append_nil]
  cut := fun hc => absurd hc hno

theorem Spliced.agreeing {p m : Nat} {e : Entry} {rest : List Entry}
    (h : Spliced l (p + 1) rest m l') (hsame : l.term e.index = some e.term)
    (hp : e.index = l.offset + p) : Spliced l p (e :: rest) (m + 1) l' := by
  have hpos : p + (m + 1) = p + 1 + m := by lia
  refine ⟨Nat.succ_le_succ h.le, ?_, ?_, ?_, ?_⟩
  · intro k x hk hx
    cases k with
    | zero =>
        cases hx
        rw [term_at hp] at hsame
        exact Option.map_eq_some_iff.mp hsame
    | succ k =>
        have hk' : p + (k + 1) = p + 1 + k := by lia
        rw [hk']
        exact h.held k x (by lia) hx
  · intro d x hd hx
    rw [hpos] at hd
    exact h.first d x hd hx
  · intro hno
    have hlen : p + (e :: rest).length = p + 1 + rest.length := by
      rw [List.length_cons]
      lia
    rw [h.kept (mt (conflicts_cons_of_term hsame).mpr hno), hpos, hlen, List.drop_succ_cons]
  · intro hc
    rw [h.cut ((conflicts_cons_of_term hsame).mp hc), hpos, List.drop_succ_cons]

theorem Spliced.conflicting {p t : Nat} {e : Entry} {rest : List Entry} {mid : RaftLog}
    (hterm : l.term e.index = some t) (hne : t ≠ e.term) (hp : e.index = l.offset + p)
    (hmid : l.truncateFrom e.index = .ok mid) (hl' : mid.append (e :: rest) = .ok l') :
    Spliced l p (e :: rest) 0 l' where
  le := Nat.zero_le _
  held := fun k _ hk => absurd hk (Nat.not_lt_zero k)
  first := by
    intro d x hd hx
    cases hx
    rw [term_at hp] at hterm
    rw [Nat.add_zero] at hd
    rw [hd] at hterm
    cases hterm
    exact hne
  kept := fun hno => absurd ⟨e, List.mem_cons_self, t, hterm, hne⟩ hno
  cut := by
    intro _
    rw [(append_entries hl').left, (truncateFrom_entries hmid).left, hp, Nat.add_sub_cancel_left,
      List.drop_zero]
    rfl

theorem appendNew_spliced {q : Nat} {ents : List Entry} (hnum : NumberedFrom (q + 1) ents)
    (hcommitted : forall e, e ∈ ents -> e.index ≤ l.committed ->
      forall t, l.term e.index = some t -> t = e.term)
    (hsnap : l.snapIndex ≤ q) (hlast : q ≤ l.lastIndex) :
    exists l' m, l.appendNew ents = .ok l' ∧ l'.committed = l.committed ∧
      Spliced l (q - l.snapIndex) ents m l' := by
  have hoff := l.offset_eq
  have hlastIndex := l.lastIndex_eq
  -- Induction on the entries; `q` is the last index that was compared.
  induction ents generalizing q with
  | nil => exact ⟨l, 0, rfl, rfl, Spliced.nil l _⟩
  | cons e rest ih =>
      have hindex : e.index = q + 1 := hnum 0 e rfl
      have hp : e.index = l.offset + (q - l.snapIndex) := by lia
      have hfirst : forall k : RaftLog, k.lastIndex = q -> forall x, (e :: rest)[0]? = some x ->
          x.index = k.lastIndex + 1 := by
        intro k hk x hx
        cases hx
        rw [hk]
        exact hindex
      unfold appendNew
      cases hterm : l.term e.index with
      | none =>
          have hlt := lastIndex_le_of_term_none hterm (by lia)
          have hend : l.lastIndex = q := by lia
          rcases append_ok (hfirst l hend) with ⟨l', hl'⟩
          have hlen : q - l.snapIndex = l.entries.length := by lia
          rw [hlen]
          exact ⟨l', 0, hl', committed_append hl',
            Spliced.appended hl' (not_conflicts_beyond hnum (by lia))⟩
      | some t =>
          by_cases heq : t = e.term
          · have hmore := (term_bounds hterm).right
            rw [hindex] at hmore
            rcases ih hnum.tail (fun d hd => hcommitted d (List.mem_cons_of_mem e hd))
              (by lia) hmore with ⟨l', m, hl', hcom, hsp⟩
            have hnext : q + 1 - l.snapIndex = q - l.snapIndex + 1 := by lia
            rw [hnext] at hsp
            rw [heq] at hterm
            dsimp only
            rw [if_neg (not_not.mpr heq)]
            exact ⟨l', m + 1, hl', hcom, hsp.agreeing hterm hp⟩
          · have hlt : l.committed < e.index := by
              by_contra hge
              exact heq (hcommitted e List.mem_cons_self (Nat.le_of_not_lt hge) t hterm)
            rcases truncateFrom_of_lt hlt (by lia) with ⟨mid, hmid, hmidCom⟩
            have hmidLast : mid.lastIndex = q := by
              have hin := (term_bounds hterm).right
              rw [mid.lastIndex_eq, (sameBase_truncateFrom hmid).snapIndex,
                (truncateFrom_entries hmid).left, List.length_take]
              lia
            rcases append_ok (hfirst mid hmidLast) with ⟨l', hl'⟩
            dsimp only
            rw [if_pos heq, bind_of_ok hmid]
            exact ⟨l', 0, hl', (committed_append hl').trans hmidCom,
              Spliced.conflicting hterm heq hp hmid hl'⟩

theorem appendNew_of_terms {ents : List Entry}
    (h : forall e, e ∈ ents -> l.term e.index = some e.term) : l.appendNew ents = .ok l := by
  induction ents with
  | nil => rfl
  | cons e rest ih =>
      unfold appendNew
      rw [h e List.mem_cons_self]
      dsimp only
      rw [if_neg (not_not.mpr rfl)]
      exact ih fun d hd => h d (List.mem_cons_of_mem e hd)

/-!
## What the log holds afterwards
-/

namespace Spliced

variable {p m : Nat} {ents : List Entry}

theorem exists_tail (h : Spliced l p ents m l') :
    exists tail, l'.entries = l.entries.take (p + m) ++ (ents.drop m ++ tail) := by
  by_cases hc : l.Conflicts ents
  · exact ⟨[], by rw [h.cut hc, List.append_nil]⟩
  · exact ⟨_, h.kept hc⟩

theorem add_le (h : Spliced l p ents m l') (hp : p ≤ l.entries.length) :
    p + m ≤ l.entries.length := by
  cases m with
  | zero => exact hp
  | succ m =>
      have hlt : m < ents.length := h.le
      rcases h.held m _ (Nat.lt_succ_self m) (List.getElem?_eq_getElem hlt) with ⟨d, hd, _⟩
      have hin := (List.getElem?_eq_some_iff.mp hd).choose
      lia

theorem below (h : Spliced l p ents m l') (hp : p ≤ l.entries.length) {i : Nat} (hi : i < p) :
    l'.entries[i]? = l.entries[i]? := by
  rcases h.exists_tail with ⟨tail, htail⟩
  rw [htail, List.getElem?_append_left (by rw [List.length_take]; lia),
    List.getElem?_take_of_lt (by lia)]

theorem length_le (h : Spliced l p ents m l') (hp : p ≤ l.entries.length) :
    p + ents.length ≤ l'.entries.length := by
  have hle := h.add_le hp
  have hm := h.le
  rcases h.exists_tail with ⟨tail, htail⟩
  rw [htail, List.length_append, List.length_append, List.length_take, List.length_drop]
  lia

theorem of_entries_eq {l'' : RaftLog} (h : Spliced l p ents m l')
    (heq : l''.entries = l'.entries) : Spliced l p ents m l'' :=
  ⟨h.le, h.held, h.first, fun hno => heq.trans (h.kept hno), fun hc => heq.trans (h.cut hc)⟩

theorem holds (h : Spliced l p ents m l') (hp : p ≤ l.entries.length) {k : Nat} {e : Entry}
    (he : ents[k]? = some e) : exists d, l'.entries[p + k]? = some d ∧ d.term = e.term := by
  have hle := h.add_le hp
  have hlen : (l.entries.take (p + m)).length = p + m := by
    rw [List.length_take]
    lia
  rcases h.exists_tail with ⟨tail, htail⟩
  rcases Nat.lt_or_ge k m with hlt | hge
  · rcases h.held k e hlt he with ⟨d, hd, hterm⟩
    refine ⟨d, ?_, hterm⟩
    rw [htail, List.getElem?_append_left (by lia), List.getElem?_take_of_lt (by lia), hd]
  · refine ⟨e, ?_, rfl⟩
    have hin : k < ents.length := (List.getElem?_eq_some_iff.mp he).choose
    have hpos : p + k - (p + m) = k - m := by lia
    have hback : m + (k - m) = k := by lia
    rw [htail, List.getElem?_append_right (by lia), hlen, hpos,
      List.getElem?_append_left (by rw [List.length_drop]; lia), List.getElem?_drop, hback, he]

theorem take_append_drop (h : Spliced l p ents m l') (hagree : l.Agrees p ents) :
    l.entries.take (p + m) ++ ents.drop m = l.entries.take p ++ ents := by
  have hsame : (l.entries.drop p).take m = ents.take m := by
    apply List.ext_getElem?
    intro k
    rw [List.getElem?_take, List.getElem?_take]
    split
    · next hk =>
        have hlt : k < ents.length := Nat.lt_of_lt_of_le hk h.le
        have he := List.getElem?_eq_getElem hlt
        rcases h.held k _ hk he with ⟨d, hd, hterm⟩
        rw [List.getElem?_drop, hd, he, hagree k d _ hd he hterm]
    · rfl
  rw [List.take_add, hsame, List.append_assoc, List.take_append_drop]

end Spliced

theorem commitTo_of_le {i : Nat} (h : i ≤ l.committed) : l.commitTo i = .ok l := by
  unfold commitTo
  rw [dif_pos h]

theorem term_of_below {i : Nat} (hbase : SameBase l l')
    (h : l.snapIndex < i -> l'.entries[i - l.offset]? = l.entries[i - l.offset]?) :
    l'.term i = l.term i := by
  have hoff := l.offset_eq
  have hoff' := l'.offset_eq
  have hsame : l'.offset = l.offset := by
    rw [hoff, hoff', hbase.snapIndex]
  rcases Nat.lt_trichotomy i l.snapIndex with hlt | heq | hgt
  · unfold term
    rw [hbase.snapIndex, if_neg (by lia), if_pos (by lia), if_neg (by lia), if_pos (by lia)]
  · unfold term
    rw [hbase.snapIndex, hbase.snapTerm, if_pos heq, if_pos heq]
  · rw [term_above hgt, term_above (by rw [hbase.snapIndex]; exact hgt), hsame, h hgt]

/-- An append is refused and changes nothing, or it leaves the old entries up to
its previous index, its own, and what was behind them unless one of them
conflicted.  Taken once more, it changes nothing. -/
theorem maybeAppend_exact (l : RaftLog) (prevIndex prevTerm commit : Nat) (ents : List Entry)
    (hnum : NumberedFrom (prevIndex + 1) ents)
    (hcommitted : forall e, e ∈ ents -> e.index ≤ l.committed ->
      forall t, l.term e.index = some t -> t = e.term) :
    (l.term prevIndex ≠ some prevTerm ->
      l.maybeAppend prevIndex prevTerm commit ents = .ok (none, l)) ∧
    (l.term prevIndex = some prevTerm -> exists l' m,
      l.maybeAppend prevIndex prevTerm commit ents = .ok (some (prevIndex + ents.length), l') ∧
      Spliced l (prevIndex - l.snapIndex) ents m l' ∧
      (l.Agrees (prevIndex - l.snapIndex) ents ->
        (¬ l.Conflicts ents ->
          l'.entries = l.entries.take (prevIndex - l.snapIndex) ++ (ents ++
            l.entries.drop (prevIndex - l.snapIndex + ents.length))) ∧
        (l.Conflicts ents -> l'.entries = l.entries.take (prevIndex - l.snapIndex) ++ ents)) ∧
      SameBase l l' ∧
      l'.committed = max l.committed (min commit (prevIndex + ents.length)) ∧
      l'.snapIndex ≤ l'.applied ∧ l'.applied ≤ l'.committed ∧ l'.committed ≤ l'.lastIndex ∧
      l'.maybeAppend prevIndex prevTerm commit ents =
        .ok (some (prevIndex + ents.length), l')) := by
  constructor
  · intro hmiss
    unfold maybeAppend
    rw [if_neg hmiss]
    rfl
  · intro hhave
    have hoff := l.offset_eq
    rcases term_bounds hhave with ⟨hsnap, hlast⟩
    rw [l.lastIndex_eq] at hlast
    have hp : prevIndex - l.snapIndex ≤ l.entries.length := by lia
    rcases appendNew_spliced hnum hcommitted hsnap (by rw [l.lastIndex_eq]; exact hlast) with
      ⟨mid, m, hmid, hmidCom, hsp⟩
    have hroom : min commit (prevIndex + ents.length) ≤ mid.lastIndex := by
      have hlen := hsp.length_le hp
      rw [mid.lastIndex_eq, (sameBase_appendNew hmid).snapIndex]
      lia
    rcases commitTo_ok hroom with ⟨l', hl'⟩
    have hbase : SameBase l l' := (sameBase_appendNew hmid).trans (sameBase_commitTo hl')
    have hcom : l'.committed = max l.committed (min commit (prevIndex + ents.length)) := by
      rw [committed_commitTo hl', hmidCom]
    have hspl : Spliced l (prevIndex - l.snapIndex) ents m l' :=
      hsp.of_entries_eq (commitTo_entries hl')
    have hoff' : l'.offset = l.offset := by
      rw [l'.offset_eq, hbase.snapIndex, hoff]
    -- The second time the log has the previous entry and all others.
    have hprev : l'.term prevIndex = some prevTerm := by
      rw [← hhave]
      apply term_of_below hbase
      intro hgt
      exact hspl.below hp (by lia)
    have hterms : forall e, e ∈ ents -> l'.term e.index = some e.term := by
      intro e he
      rcases List.mem_iff_getElem?.mp he with ⟨k, hk⟩
      have hindex := hnum k e hk
      have hpos : e.index - l'.offset = prevIndex - l.snapIndex + k := by lia
      rcases hspl.holds hp hk with ⟨d, hd, hterm⟩
      rw [term_above (by rw [hbase.snapIndex]; lia), hpos, hd, ← hterm]
      rfl
    refine ⟨l', m, ?_, hspl, ?_, hbase, hcom, l'.snapIndex_le, l'.applied_le,
      l'.committed_le_lastIndex, ?_⟩
    · unfold maybeAppend
      rw [if_pos hhave]
      exact bind_eq_ok.mpr ⟨mid, hmid, bind_eq_ok.mpr ⟨l', hl', rfl⟩⟩
    · intro hagree
      have hjoin := hspl.take_append_drop hagree
      constructor
      · intro hno
        rw [hspl.kept hno, ← List.append_assoc, hjoin, List.append_assoc]
      · intro hc
        rw [hspl.cut hc, hjoin]
    · unfold maybeAppend
      rw [if_pos hprev]
      have hagain : l'.commitTo (min commit (prevIndex + ents.length)) = .ok l' :=
        commitTo_of_le (by lia)
      exact bind_eq_ok.mpr ⟨l', appendNew_of_terms hterms, bind_eq_ok.mpr ⟨l', hagain, rfl⟩⟩

def oneEntry : RaftLog where
  entries := [{ index := 1, term := 1, data := [1] }]
  offset := 1
  snapIndex := 0
  snapTerm := 0
  committed := 0
  applied := 0
  offset_eq := rfl
  snapIndex_le := Nat.le_refl _
  applied_le := Nat.le_refl _
  committed_le := Nat.zero_le _

/-- An entry that the log has with other data, and one that it lacks. -/
def overlap : List Entry :=
  [{ index := 1, term := 1, data := [2] }, { index := 2, term := 3, data := [5] }]

theorem maybeAppend_exact_oneEntry :
    exists l' : RaftLog, oneEntry.maybeAppend 0 0 2 overlap = .ok (some 2, l') ∧
      Spliced oneEntry 0 overlap 1 l' ∧
      l'.entries =
        [{ index := 1, term := 1, data := [1] }, { index := 2, term := 3, data := [5] }] ∧
      l'.committed = 2 := by
  have hexact := maybeAppend_exact oneEntry 0 0 2 overlap (by decide) (by decide)
  rcases hexact.right rfl with ⟨l', m, hl', hsp, _, _, hcom, _⟩
  have hkeep : m = 1 := by
    have hle : m ≤ 2 := hsp.le
    match m with
    | 0 =>
        have hne := hsp.first _ _ rfl rfl
        exact absurd rfl hne
    | 1 => rfl
    | 2 =>
        rcases hsp.held 1 _ (by decide) rfl with ⟨d, hd, _⟩
        cases hd
  subst hkeep
  have hno : ¬ oneEntry.Conflicts overlap := by
    rintro ⟨e, he, t, ht, hne⟩
    rcases List.mem_cons.mp he with rfl | he
    · cases ht
      exact hne rfl
    · rw [List.mem_singleton.mp he] at ht
      cases ht
  exact ⟨l', hl', hsp, hsp.kept hno, hcom⟩

/-- An entry with the index and the term of one the log has is not written: the
log keeps its own data. -/
theorem maybeAppend_keeps_data :
    NumberedFrom 1 [{ index := 1, term := 1, data := [2] }] ∧ oneEntry.committed = 0 ∧
      exists l' : RaftLog, oneEntry.maybeAppend 0 0 0
          [{ index := 1, term := 1, data := [2] }] = .ok (some 1, l') ∧
        l'.entries = [{ index := 1, term := 1, data := [1] }] :=
  ⟨by decide, rfl, oneEntry, rfl, rfl⟩

end RaftLog

end Raft
end Basalt
