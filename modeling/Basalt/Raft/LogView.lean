import Basalt.Lib.ReplicatedLog.Protocol
import Basalt.Raft.Log

/-!
# The log as a list

A `RaftLog` keeps the tail of a list of entries numbered from one.  `View l F`
says that `F` is the whole list, compacted prefix included; the operations are
described by what they do to it.
-/

namespace Basalt
namespace Raft

open Lib.ReplicatedLog

def Numbered (F : List Entry) : Prop :=
  forall k e, F[k]? = some e -> e.index = k + 1

theorem Numbered.of_pre {F G : List Entry} (h : Numbered G)
    (hpre : F <+: G) : Numbered F := by
  intro k e hk
  have hlt : k < F.length := (List.getElem?_eq_some_iff.mp hk).choose
  rcases hpre with ⟨rest, rfl⟩
  exact h k e (by rw [List.getElem?_append_left hlt]; exact hk)

theorem Numbered.append {F es : List Entry} (h : Numbered F)
    (hes : forall i e, es[i]? = some e -> e.index = F.length + 1 + i) :
    Numbered (F ++ es) := by
  intro k e hk
  rcases Nat.lt_or_ge k F.length with hlt | hge
  · rw [List.getElem?_append_left hlt] at hk
    exact h k e hk
  · rw [List.getElem?_append_right hge] at hk
    have hidx := hes _ e hk
    lia

def RaftLog.entryAt (l : RaftLog) (i : Nat) : Option Entry :=
  if i < l.offset then none else l.entries[i - l.offset]?

theorem RaftLog.entryAt_beyond (l : RaftLog) {i : Nat} (h : l.lastIndex < i) :
    l.entryAt i = none := by
  have hoff := l.offset_eq
  have hlast := l.lastIndex_eq
  rw [entryAt]
  split
  · rfl
  · exact List.getElem?_eq_none (by lia)

theorem RaftLog.entryAt_lastIndex {l : RaftLog} (h : l.snapIndex < l.lastIndex) :
    exists e, l.entryAt l.lastIndex = some e := by
  have hoff := l.offset_eq
  have hlast := l.lastIndex_eq
  rw [entryAt, if_neg (by lia)]
  exact ⟨_, List.getElem?_eq_getElem (by lia)⟩

structure View (l : RaftLog) (F : List Entry) : Prop where
  snap_le : l.snapIndex ≤ F.length
  entries_eq : l.entries = F.drop l.snapIndex
  snapTerm_eq : l.snapTerm = termAt Entry.term F l.snapIndex
  numbered : Numbered F

namespace View

variable {l l' : RaftLog} {F : List Entry}

theorem newLog : View newLog [] where
  snap_le := Nat.le_refl _
  entries_eq := rfl
  snapTerm_eq := rfl
  numbered := fun k e h => by simp at h

theorem length_entries (h : View l F) :
    l.snapIndex + l.entries.length = F.length := by
  have hle := h.snap_le
  rw [h.entries_eq, List.length_drop]
  lia

theorem lastIndex (h : View l F) : l.lastIndex = F.length := by
  rw [l.lastIndex_eq, h.length_entries]

theorem committed_le (h : View l F) : l.committed ≤ F.length := by
  rw [← h.lastIndex]
  exact l.committed_le_lastIndex

theorem applied_le (h : View l F) : l.applied ≤ F.length :=
  Nat.le_trans l.applied_le h.committed_le

theorem term_inside (h : View l F) {i : Nat} (hsnap : l.snapIndex ≤ i)
    (hi : i ≤ F.length) : l.term i = some (termAt Entry.term F i) := by
  have hoff := l.offset_eq
  have hlast := h.lastIndex
  rw [RaftLog.term]
  split
  · next heq => rw [heq, h.snapTerm_eq]
  · rw [if_neg (by lia)]
    rcases i with _ | i
    · lia
    · have hget : l.entries[i + 1 - l.offset]? = F[i]? := by
        rw [h.entries_eq, List.getElem?_drop]
        congr 1
        lia
      rw [hget, List.getElem?_eq_getElem (by lia : i < F.length)]
      simp [termAt, List.getElem?_eq_getElem (by lia : i < F.length)]

theorem term_beyond (h : View l F) {i : Nat} (hi : F.length < i) :
    l.term i = none := by
  have hsnap := h.snap_le
  have hlast := h.lastIndex
  rw [RaftLog.term, if_neg (by lia), if_pos (by lia)]

theorem bounds_of_term (h : View l F) {i t : Nat} (hterm : l.term i = some t) :
    l.snapIndex ≤ i ∧ i ≤ F.length ∧ termAt Entry.term F i = t := by
  have hbounds := RaftLog.term_bounds hterm
  rw [h.lastIndex] at hbounds
  rw [h.term_inside hbounds.left hbounds.right] at hterm
  exact ⟨hbounds.left, hbounds.right, Option.some.inj hterm⟩

theorem entryAt (h : View l F) {i : Nat} (hsnap : l.snapIndex ≤ i) :
    l.entryAt (i + 1) = F[i]? := by
  have hoff := l.offset_eq
  rw [RaftLog.entryAt, if_neg (by lia), h.entries_eq, List.getElem?_drop]
  congr 1
  lia

theorem lastTerm (h : View l F) :
    l.lastTerm = .ok (Lib.ReplicatedLog.lastTerm Entry.term F) := by
  rw [RaftLog.lastTerm, h.lastIndex, h.term_inside h.snap_le (Nat.le_refl _)]
  rfl

theorem upToDate (h : View l F) {C : List Entry}
    (hgrant : l.isUpToDate C.length (Lib.ReplicatedLog.lastTerm Entry.term C) =
      .ok true) : UpToDate Entry.term C F := by
  rw [RaftLog.isUpToDate, h.lastTerm, h.lastIndex] at hgrant
  change (if Lib.ReplicatedLog.lastTerm Entry.term C ≠
      Lib.ReplicatedLog.lastTerm Entry.term F then
    Except.ok (decide (Lib.ReplicatedLog.lastTerm Entry.term F <
      Lib.ReplicatedLog.lastTerm Entry.term C))
    else Except.ok (decide (F.length ≤ C.length))) = Except.ok true at hgrant
  split at hgrant
  · exact Or.inl (by simpa using hgrant)
  · next heq => exact Or.inr ⟨not_not.mp heq, by simpa using hgrant⟩

theorem append (h : View l F) {es : List Entry}
    (hes : forall i e, es[i]? = some e -> e.index = F.length + 1 + i)
    (hl : l.append es = .ok l') :
    View l' (F ++ es) ∧ l'.snapIndex = l.snapIndex ∧
      l'.committed = l.committed ∧ l'.applied = l.applied := by
  have hview : forall {k : RaftLog}, k.snapIndex = l.snapIndex ->
      k.snapTerm = l.snapTerm -> k.entries = l.entries ++ es ->
      View k (F ++ es) := by
    intro k hsnap hterm hentries
    constructor
    · rw [hsnap, List.length_append]
      exact Nat.le_trans h.snap_le (Nat.le_add_right _ _)
    · rw [hsnap, hentries, h.entries_eq, List.drop_append_of_le_length h.snap_le]
    · rw [hsnap, hterm, h.snapTerm_eq]
      exact (termAt_of_pre Entry.term (List.prefix_append F es)
        h.snap_le).symm
    · exact h.numbered.append hes
  cases es with
  | nil =>
      cases hl
      exact ⟨hview rfl rfl (by simp), rfl, rfl, rfl⟩
  | cons e rest =>
      rw [RaftLog.append] at hl
      split at hl
      · cases hl
      · cases hl
        exact ⟨hview rfl rfl rfl, rfl, rfl, rfl⟩

theorem truncate (h : View l F) {q : Nat} (hsnap : l.snapIndex ≤ q)
    (hcommitted : l.committed ≤ q) :
    exists l', l.truncateFrom (q + 1) = .ok l' ∧ View l' (F.take q) ∧
      l'.snapIndex = l.snapIndex ∧ l'.committed = l.committed ∧
      l'.applied = l.applied := by
  have hoff := l.offset_eq
  rw [RaftLog.truncateFrom, dif_neg (by lia), if_neg (by lia)]
  refine ⟨_, rfl, ⟨?_, ?_, ?_, ?_⟩, rfl, rfl, rfl⟩
  · change l.snapIndex ≤ (F.take q).length
    have hle := h.snap_le
    rw [List.length_take]
    lia
  · change l.entries.take (q + 1 - l.offset) = (F.take q).drop l.snapIndex
    rw [h.entries_eq, List.drop_take]
    congr 1
    lia
  · change l.snapTerm = termAt Entry.term (F.take q) l.snapIndex
    have hle := h.snap_le
    rw [h.snapTerm_eq]
    apply termAt_of_pre Entry.term (List.take_prefix q F)
    rw [List.length_take]
    lia
  · exact h.numbered.of_pre (List.take_prefix q F)

theorem slice (h : View l F) {lo hi : Nat} (hlo : l.snapIndex ≤ lo)
    (hle : lo ≤ hi) (hhi : hi ≤ F.length) :
    l.slice (lo + 1) (hi + 1) = .ok ((F.drop lo).take (hi - lo)) := by
  have hoff := l.offset_eq
  have hlast := h.lastIndex
  have hdrop : l.snapIndex + (lo + 1 - l.offset) = lo := by lia
  have htake : hi + 1 - (lo + 1) = hi - lo := by lia
  rw [RaftLog.slice_ok (by lia) (by lia) (by lia), h.entries_eq,
    List.drop_drop, hdrop, htake]

theorem commitTo (h : View l F) {i : Nat} (hi : i ≤ F.length) :
    exists l', l.commitTo i = .ok l' ∧ View l' F ∧
      l'.committed = max l.committed i ∧ l'.applied = l.applied ∧
      l'.snapIndex = l.snapIndex := by
  rw [RaftLog.commitTo]
  split
  · exact ⟨l, rfl, h, by lia, rfl, rfl⟩
  · rw [dif_neg (by rw [h.lastIndex]; lia)]
    exact ⟨_, rfl, ⟨h.snap_le, h.entries_eq, h.snapTerm_eq, h.numbered⟩,
      by change i = max l.committed i; lia, rfl, rfl⟩

theorem appliedTo (h : View l F) {i : Nat} (hlo : l.applied ≤ i)
    (hhi : i ≤ l.committed) :
    exists l', l.appliedTo i = .ok l' ∧ View l' F ∧
      l'.committed = l.committed ∧ l'.applied = i ∧
      l'.snapIndex = l.snapIndex := by
  rw [RaftLog.appliedTo, dif_neg (by lia)]
  exact ⟨_, rfl, ⟨h.snap_le, h.entries_eq, h.snapTerm_eq, h.numbered⟩, rfl,
    rfl, rfl⟩

theorem compactTo (h : View l F) {i : Nat} (hi : i ≤ l.applied) :
    exists l', l.compactTo i = .ok l' ∧ View l' F ∧
      l'.committed = l.committed ∧ l'.applied = l.applied ∧
      l'.snapIndex = max l.snapIndex i := by
  rw [RaftLog.compactTo]
  split
  · next hsnap => exact ⟨l, rfl, h, rfl, rfl, by lia⟩
  · next hsnap =>
      have hlen : i ≤ F.length := Nat.le_trans hi h.applied_le
      have hoff := l.offset_eq
      rw [dif_neg (Nat.not_lt.mpr hi), h.term_inside (by lia) hlen]
      refine ⟨_, rfl, ⟨hlen, ?_, rfl, h.numbered⟩, rfl, rfl, ?_⟩
      · change l.entries.drop (i - l.offset + 1) = F.drop i
        rw [h.entries_eq, List.drop_drop]
        congr 1
        lia
      · change i = max l.snapIndex i
        lia

/-!
## Appends of a leader's entries

`T` is the log of the leader.  Where both logs have an entry of the same term
they agree up to there, and the committed part of `F` is part of `T`.
-/

variable {T : List Entry}

theorem not_prefix_of_conflict {q j : Nat} {e d : Entry}
    (hF : F[q]? = some e) (hT : T[q]? = some d) (hne : e ≠ d) (hqj : q < j) :
    ¬ T.take j <+: F := by
  rintro ⟨rest, hrest⟩
  have hget : (T.take j)[q]? = some d := by
    rw [List.getElem?_take_of_lt hqj, hT]
  have hlt : q < (T.take j).length := (List.getElem?_eq_some_iff.mp hget).choose
  rw [← hrest, List.getElem?_append_left hlt, hget] at hF
  exact hne (Option.some.inj hF).symm

theorem appendNew (h : View l F) (hT : Numbered T)
    (hmatch : forall k e d, F[k]? = some e -> T[k]? = some d ->
      e.term = d.term -> F.take (k + 1) = T.take (k + 1))
    (hcommitted : F.take l.committed <+: T)
    {q j : Nat} (hq : F.take q = T.take q) (hqF : q ≤ F.length)
    (hsnap : l.snapIndex ≤ q) (hqj : q ≤ j) (hj : j ≤ T.length) :
    exists l' F', l.appendNew ((T.drop q).take (j - q)) = .ok l' ∧
      View l' F' ∧ l'.snapIndex = l.snapIndex ∧
      l'.committed = l.committed ∧ l'.applied = l.applied ∧
      (T.take j <+: F ∧ F' = F ∨ ¬ T.take j <+: F ∧ F' = T.take j) := by
  -- Induction on what is left to compare; the logs agree up to `q`.
  induction hm : j - q generalizing q with
  | zero =>
      have hjq : j = q := by lia
      subst hjq
      refine ⟨l, F, by simp [RaftLog.appendNew], h, rfl, rfl, rfl,
        Or.inl ⟨?_, rfl⟩⟩
      rw [← hq]
      exact List.take_prefix _ _
  | succ m ih =>
      have hqT : q < T.length := by lia
      have hTq : T[q]? = some T[q] := List.getElem?_eq_getElem hqT
      have hrest : (T.drop q).take (m + 1) =
          T[q] :: (T.drop (q + 1)).take m := by
        rw [List.drop_eq_getElem_cons hqT, List.take_succ_cons]
      have hidx : T[q].index = q + 1 := hT q _ hTq
      have htail : T.take q ++ T[q] :: (T.drop (q + 1)).take m =
          T.take j := by
        have hjq : j = q + (m + 1) := by lia
        rw [← hrest, hjq]
        exact List.take_add.symm
      have hnew : forall i e,
          (T[q] :: (T.drop (q + 1)).take m)[i]? = some e ->
          e.index = q + 1 + i := by
        intro i e he
        rw [← hrest, List.getElem?_take] at he
        split at he
        · rw [List.getElem?_drop] at he
          have := hT _ e he
          lia
        · cases he
      rw [hrest, RaftLog.appendNew, hidx]
      rcases Nat.lt_or_ge q F.length with hlt | hge
      · have hFq : F[q]? = some F[q] := List.getElem?_eq_getElem hlt
        have hterm : l.term (q + 1) = some F[q].term := by
          rw [h.term_inside (by lia) (by lia),
            termAt_succ_of_getElem? Entry.term hFq]
        rw [hterm]
        by_cases heq : F[q].term = T[q].term
        · simp only [heq, ne_eq, not_true_eq_false, if_false]
          exact ih (hmatch q _ _ hFq hTq heq) (by lia) (by lia) (by lia)
            (by lia)
        · simp only [ne_eq, heq, not_false_eq_true, if_true]
          have hne : F[q] ≠ T[q] := fun hsame => heq (by rw [hsame])
          have hcom : l.committed ≤ q := by
            by_contra hgt
            rcases hcommitted with ⟨rest, hTrest⟩
            have hget : (F.take l.committed)[q]? = some F[q] := by
              rw [List.getElem?_take_of_lt (by lia), hFq]
            have hlen : q < (F.take l.committed).length :=
              (List.getElem?_eq_some_iff.mp hget).choose
            have hTq' : T[q]? = some F[q] := by
              rw [← hTrest, List.getElem?_append_left hlen, hget]
            exact hne (Option.some.inj (hTq'.symm.trans hTq))
          rcases h.truncate hsnap hcom with ⟨l1, hl1, hview1, hs1, hc1, ha1⟩
          have hlen1 : (F.take q).length = q := by
            rw [List.length_take]
            lia
          have hfirst : forall e,
              (T[q] :: (T.drop (q + 1)).take m)[0]? = some e ->
              e.index = l1.lastIndex + 1 := by
            rw [hview1.lastIndex, hlen1]
            exact hnew 0
          rcases RaftLog.append_ok hfirst with ⟨l2, hl2⟩
          rcases hview1.append (by rw [hlen1]; exact hnew) hl2 with
            ⟨hview2, hs2, hc2, ha2⟩
          refine ⟨l2, T.take j, ?_, ?_, hs2.trans hs1, hc2.trans hc1,
            ha2.trans ha1, Or.inr ⟨?_, rfl⟩⟩
          · rw [hl1]
            exact hl2
          · rw [← htail, ← hq]
            exact hview2
          · exact not_prefix_of_conflict hFq hTq hne (by lia)
      · have hFq : F.length = q := by lia
        rw [h.term_beyond (by lia)]
        have hfirst : forall e,
            (T[q] :: (T.drop (q + 1)).take m)[0]? = some e ->
            e.index = l.lastIndex + 1 := by
          rw [h.lastIndex, hFq]
          exact hnew 0
        rcases RaftLog.append_ok hfirst with ⟨l2, hl2⟩
        rcases h.append (by rw [hFq]; exact hnew) hl2 with
          ⟨hview2, hs2, hc2, ha2⟩
        refine ⟨l2, T.take j, hl2, ?_, hs2, hc2, ha2, Or.inr ⟨?_, rfl⟩⟩
        · rw [← htail, ← hq, List.take_of_length_le (by lia)]
          exact hview2
        · intro hpre
          have hlen := hpre.length_le
          rw [List.length_take] at hlen
          lia

end View

end Raft
end Basalt
