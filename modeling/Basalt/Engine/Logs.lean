import Basalt.Engine.Contents

/-!
# What the log holds

From the segment on that the manifest names, the log holds the operations that are
not flushed, and from the boundary of the sealed memtable on those of the memtable.
So a flush may move the number in the manifest up to that boundary.
-/

namespace Basalt
namespace Engine

open Lib Base Std Manifest Wal Compaction

namespace Core

def logged (segments : List (Nat × List Batch)) (n : Nat) : List Batch :=
  (segments.filter fun s => n ≤ s.1).flatMap Prod.snd

section Segments

variable {segments : List (Nat × List Batch)} {n m id : Nat}

theorem logged_append (segments : List (Nat × List Batch)) (s : Nat × List Batch) (n : Nat) :
    logged (segments ++ [s]) n = logged segments n ++ if n ≤ s.1 then s.2 else [] := by
  unfold logged
  rw [List.filter_append, List.flatMap_append]
  congr 1
  split
  · next h => simp [h]
  · next h => simp [h]

theorem logged_rotate (segments : List (Nat × List Batch)) (id n : Nat) :
    logged (segments ++ [(id, [])]) n = logged segments n := by
  rw [logged_append]
  split
  · exact List.append_nil _
  · exact List.append_nil _

theorem logged_prune (h : m ≤ n) :
    logged (segments.filter fun s => m ≤ s.1) n = logged segments n := by
  unfold logged
  rw [List.filter_filter]
  congr 1
  apply List.filter_congr
  intro s _
  rw [← Bool.decide_and, decide_eq_decide]
  constructor
  · exact fun h => h.left
  · exact fun hn => ⟨hn, Nat.le_trans h hn⟩

abbrev Rising (segments : List (Nat × List Batch)) : Prop :=
  segments.Pairwise fun s s' => s.1 < s'.1

def Ends (segments : List (Nat × List Batch)) (id : Nat) : Prop :=
  exists rest bs, segments = rest ++ [(id, bs)]

theorem Rising.lt_of_ends {rest : List (Nat × List Batch)} {bs : List Batch}
    (h : Rising (rest ++ [(id, bs)])) {s : Nat × List Batch} (hs : s ∈ rest) : s.1 < id :=
  (List.pairwise_append.mp h).right.right s hs _ List.mem_cons_self

theorem Ends.le (h : Ends segments id) (hrising : Rising segments) {s : Nat × List Batch}
    (hs : s ∈ segments) : s.1 ≤ id := by
  rcases h with ⟨rest, bs, rfl⟩
  rcases List.mem_append.mp hs with hs | hs
  · exact Nat.le_of_lt (hrising.lt_of_ends hs)
  · rw [List.mem_singleton.mp hs]

theorem Ends.rotate (segments : List (Nat × List Batch)) (id : Nat) :
    Ends (segments ++ [(id, [])]) id :=
  ⟨segments, [], rfl⟩

theorem Rising.rotate (h : Rising segments) (hlt : forall s, s ∈ segments -> s.1 < id) :
    Rising (segments ++ [(id, [])]) := by
  apply List.pairwise_append.mpr ⟨h, List.pairwise_singleton _ _, _⟩
  intro s hs s' hs'
  rw [List.mem_singleton.mp hs']
  exact hlt s hs

theorem Ends.prune (h : Ends segments id) (hm : m ≤ id) :
    Ends (segments.filter fun s => m ≤ s.1) id := by
  rcases h with ⟨rest, bs, rfl⟩
  refine ⟨rest.filter fun s => m ≤ s.1, bs, ?_⟩
  have hkept : decide (m ≤ (id, bs).1) = true := decide_eq_true hm
  rw [List.filter_append, List.filter_singleton, hkept]
  rfl

theorem logBatch_ends {rest : List (Nat × List Batch)} {bs : List Batch}
    (h : Rising (rest ++ [(id, bs)])) (b : Batch) :
    logBatch (rest ++ [(id, bs)]) id b = rest ++ [(id, bs ++ [b])] := by
  have hrest : rest.map (fun s => if s.1 = id then (s.1, s.2 ++ [b]) else s) =
      rest.map (fun s => s) := by
    apply List.map_congr_left
    intro s hs
    exact if_neg (Nat.ne_of_lt (h.lt_of_ends hs))
  unfold logBatch
  rw [List.map_append, hrest, List.map_id', List.map_singleton, if_pos rfl]

theorem logged_logBatch (h : Ends segments id) (hrising : Rising segments) (hn : n ≤ id)
    (b : Batch) : logged (logBatch segments id b) n = logged segments n ++ [b] := by
  rcases h with ⟨rest, bs, rfl⟩
  rw [logBatch_ends hrising, logged_append, logged_append, if_pos hn, if_pos hn, List.append_assoc]

theorem Ends.logBatch (h : Ends segments id) (hrising : Rising segments) (b : Batch) :
    Ends (logBatch segments id b) id := by
  rcases h with ⟨rest, bs, rfl⟩
  rw [logBatch_ends hrising]
  exact ⟨rest, bs ++ [b], rfl⟩

theorem map_fst_logBatch (segments : List (Nat × List Batch)) (id : Nat) (b : Batch) :
    (logBatch segments id b).map Prod.fst = segments.map Prod.fst := by
  unfold logBatch
  rw [List.map_map]
  apply List.map_congr_left
  intro s _
  show (if s.1 = id then (s.1, s.2 ++ [b]) else s).1 = s.1
  split
  · rfl
  · rfl

theorem Rising.logBatch (h : Rising segments) (id : Nat) (b : Batch) :
    Rising (logBatch segments id b) := by
  have hfst : (segments.map Prod.fst).Pairwise (· < ·) := List.pairwise_map.mpr h
  rw [← map_fst_logBatch segments id b] at hfst
  exact List.pairwise_map.mp hfst

end Segments

/-- From the segment `n` on the log holds the operations; after an error, those of a
batch that was not acknowledged may follow. -/
def Records (c : Core) (n : Nat) (ops : List Op) : Prop :=
  exists stray : Option Batch, opsOf (logged c.segments n) = ops ++ opsOf stray.toList ∧
    (c.bgErr = false -> stray = none)

section Records

variable {c c' : Core} {n : Nat} {ops : List Op}

theorem Records.of_eq (h : opsOf (logged c.segments n) = ops) : c.Records n ops :=
  ⟨none, h.trans (List.append_nil ops).symm, fun _ => rfl⟩

theorem Records.eq (h : c.Records n ops) (hbgErr : c.bgErr = false) :
    opsOf (logged c.segments n) = ops := by
  rcases h with ⟨stray, heq, hnone⟩
  rw [heq, hnone hbgErr]
  exact List.append_nil ops

theorem Records.keep (h : c.Records n ops)
    (hlogged : logged c'.segments n = logged c.segments n)
    (hbgErr : c'.bgErr = false -> c.bgErr = false) : c'.Records n ops := by
  rcases h with ⟨stray, heq, hnone⟩
  exact ⟨stray, by rw [hlogged]; exact heq, fun h => hnone (hbgErr h)⟩

end Records

/-- What the log and the manifest say of each other. -/
structure Logs (c : Core) (sb mb : List Batch) : Prop where
  rising : Rising c.segments
  anchored : c.logNumber = 0 ∨ exists s, s ∈ c.segments ∧ c.logNumber ≤ s.1
  pruning : forall cap, .running cap .pruning ∈ c.flushers -> cap.bound ≤ c.logNumber
  off : c.closed = true -> c.wal = none
  closed : c.closed = true -> c.bgErr = false -> opsOf (logged c.segments c.logNumber) = []
  ends : forall id, c.wal = some id -> Ends c.segments id ∧ c.logNumber ≤ id
  unflushed : c.wal.isSome -> c.Records c.logNumber (opsOf sb ++ opsOf mb)
  bound : forall id, c.wal = some id -> c.imm.isSome -> c.logNumber ≤ c.immBound ∧ c.immBound ≤ id
  unsealed : c.wal.isSome -> c.imm.isSome -> c.Records c.immBound (opsOf mb)
  disabled : c.closed = false -> c.wal = none ->
    opsOf (logged c.segments c.logNumber) = [] ∧ (c.imm.isSome -> c.immBound = 0)

namespace Logs

variable {sizes : Sizes} {c c' : Core} {fb sb mb : List Batch}

theorem ne_closed (h : c.Logs sb mb) {id : Nat} (hwal : c.wal = some id) : c.closed = false := by
  rw [← Bool.not_eq_true]
  intro hclosed
  rw [h.off hclosed] at hwal
  cases hwal

theorem rotate (h : c.Logs sb mb) {id : Nat} (hwal : c.wal = some id) :
    Logs { c with wal := some (id + 1), segments := c.segments ++ [(id + 1, [])] } sb mb := by
  rcases h.ends id hwal with ⟨hends, hle⟩
  have hlt : forall s, s ∈ c.segments -> s.1 < id + 1 :=
    fun s hs => Nat.lt_succ_of_le (hends.le h.rising hs)
  have hsome : c.wal.isSome := by
    rw [hwal]
    rfl
  have hopen := h.ne_closed hwal
  exact {
    rising := h.rising.rotate hlt
    anchored := h.anchored.imp (fun hzero => hzero)
      fun ⟨s, hs, hle⟩ => ⟨s, List.mem_append_left _ hs, hle⟩
    pruning := h.pruning
    off := fun hclosed => by
      rw [hopen] at hclosed
      cases hclosed
    closed := fun hclosed => by
      rw [hopen] at hclosed
      cases hclosed
    ends := fun id' hid' => by
      cases hid'
      exact ⟨Ends.rotate _ _, Nat.le_succ_of_le hle⟩
    unflushed := fun _ => (h.unflushed hsome).keep (logged_rotate _ _ _) fun hb => hb
    bound := fun id' hid' himm => by
      cases hid'
      rcases h.bound id hwal himm with ⟨hlow, hhigh⟩
      exact ⟨hlow, Nat.le_succ_of_le hhigh⟩
    unsealed := fun _ himm => (h.unsealed hsome himm).keep (logged_rotate _ _ _) fun hb => hb
    disabled := fun _ hnone => by cases hnone }

theorem sealed (h : c.Logs [] mb) (hclosed : c.closed = false) :
    Logs (c.sealAndFlush true).1 mb [] := by
  have hnotClosed : ¬ c.closed = true := by
    rw [hclosed]
    exact Bool.false_ne_true
  have hfs : forall cap, .running cap .pruning ∈ c.flushers ++ [.starting] ->
      cap.bound ≤ c.logNumber := by
    intro cap hmem
    rcases List.mem_append.mp hmem with hmem | hmem
    · exact h.pruning cap hmem
    · cases List.mem_singleton.mp hmem
  rw [sealAndFlush_true]
  cases hwal : c.wal with
  | none =>
      rcases h.disabled hclosed hwal with ⟨hnil, _⟩
      exact {
        rising := h.rising
        anchored := h.anchored
        pruning := hfs
        off := fun hbad => absurd hbad hnotClosed
        closed := fun hbad => absurd hbad hnotClosed
        ends := fun _ hid => by cases hid
        unflushed := fun hsome => by cases hsome
        bound := fun _ hid => by cases hid
        unsealed := fun hsome => by cases hsome
        disabled := fun _ _ => ⟨hnil, fun _ => rfl⟩ }
  | some id =>
      have hrotated := h.rotate hwal
      have hfresh : logged (c.segments ++ [(id + 1, [])]) (id + 1) = [] := by
        rw [logged_rotate]
        unfold logged
        have hnone : (c.segments.filter fun s => id + 1 ≤ s.1) = [] := by
          rw [List.filter_eq_nil_iff]
          intro s hs hle
          have hle' := (h.ends id hwal).left.le h.rising hs
          have hle := of_decide_eq_true hle
          lia
        rw [hnone]
        rfl
      exact {
        rising := hrotated.rising
        anchored := hrotated.anchored
        pruning := hfs
        off := fun hbad => absurd hbad hnotClosed
        closed := fun hbad => absurd hbad hnotClosed
        ends := hrotated.ends
        unflushed := fun _ => by
          have hold := hrotated.unflushed rfl
          show Records _ _ (opsOf mb ++ opsOf [])
          rw [show opsOf ([] : List Batch) = [] from rfl, List.append_nil]
          exact hold
        bound := fun id' hid' _ => by
          cases hid'
          exact ⟨Nat.le_succ_of_le (h.ends id hwal).right, Nat.le_refl _⟩
        unsealed := fun _ _ => by
          apply Records.of_eq
          show opsOf (logged (c.segments ++ [(id + 1, [])]) (id + 1)) = []
          rw [hfresh]
          rfl
        disabled := fun _ hnone => by cases hnone }

theorem anchored_logBatch (h : c.Logs sb mb) (id : Nat) (b : Batch) :
    c.logNumber = 0 ∨ exists s, s ∈ logBatch c.segments id b ∧ c.logNumber ≤ s.1 := by
  refine h.anchored.imp (fun hzero => hzero) ?_
  rintro ⟨s, hs, hle⟩
  have hfst : s.1 ∈ (logBatch c.segments id b).map Prod.fst := by
    rw [map_fst_logBatch]
    exact List.mem_map_of_mem hs
  rcases List.mem_map.mp hfst with ⟨s', hs', heq⟩
  exact ⟨s', hs', heq.symm ▸ hle⟩

theorem opsOf_concat (bs : List Batch) (b : Batch) : opsOf (bs ++ [b]) = opsOf bs ++ b.ops := by
  rw [opsOf_append]
  simp [opsOf]

theorem commit (h : c.Logs sb mb) (hclosed : c.closed = false) (hbgErr : c.bgErr = false)
    (b : Batch) :
    Logs { c with segments := c.wal.elim c.segments fun id => logBatch c.segments id b } sb
      (mb ++ [b]) := by
  have hnotClosed : ¬ c.closed = true := by
    rw [hclosed]
    exact Bool.false_ne_true
  cases hwal : c.wal with
  | none =>
      exact {
        rising := h.rising
        anchored := h.anchored
        pruning := h.pruning
        off := fun hbad => absurd hbad hnotClosed
        closed := fun hbad => absurd hbad hnotClosed
        ends := fun _ hid => by cases hid
        unflushed := fun hsome => by cases hsome
        bound := fun _ hid => by cases hid
        unsealed := fun hsome => by cases hsome
        disabled := fun _ _ => h.disabled hclosed hwal }
  | some id =>
      rcases h.ends id hwal with ⟨hends, hle⟩
      have hsome : c.wal.isSome := by
        rw [hwal]
        rfl
      exact {
        rising := h.rising.logBatch id b
        anchored := h.anchored_logBatch id b
        pruning := h.pruning
        off := fun hbad => absurd hbad hnotClosed
        closed := fun hbad => absurd hbad hnotClosed
        ends := fun id' hid' => by
          cases hid'
          exact ⟨hends.logBatch h.rising b, hle⟩
        unflushed := fun _ => by
          apply Records.of_eq
          show opsOf (logged (logBatch c.segments id b) c.logNumber) = _
          rw [logged_logBatch hends h.rising hle, opsOf_concat, opsOf_concat,
            (h.unflushed hsome).eq hbgErr, List.append_assoc]
        bound := fun id' hid' himm => by
          cases hid'
          exact h.bound id hwal himm
        unsealed := fun _ himm => by
          apply Records.of_eq
          show opsOf (logged (logBatch c.segments id b) c.immBound) = _
          rw [logged_logBatch hends h.rising (h.bound id hwal himm).right, opsOf_concat,
            opsOf_concat, (h.unsealed hsome himm).eq hbgErr]
        disabled := fun _ hnone => by cases hnone }

theorem stray (h : c.Logs sb mb) {id : Nat} (hwal : c.wal = some id) (hbgErr : c.bgErr = false)
    (b : Batch) :
    Logs { c with bgErr := true, segments := logBatch c.segments id b } sb mb := by
  rcases h.ends id hwal with ⟨hends, hle⟩
  have hsome : c.wal.isSome := by
    rw [hwal]
    rfl
  have hopen := h.ne_closed hwal
  have hrecords : forall n ops, n ≤ id -> c.Records n ops ->
      Records { c with bgErr := true, segments := logBatch c.segments id b } n ops := by
    intro n ops hn hrecords
    refine ⟨some b, ?_, fun hbad => by cases hbad⟩
    show opsOf (logged (logBatch c.segments id b) n) = _
    rw [logged_logBatch hends h.rising hn, opsOf_append, hrecords.eq hbgErr]
    rfl
  exact { h with
    rising := h.rising.logBatch id b
    anchored := h.anchored_logBatch id b
    closed := fun _ hbad => by cases hbad
    ends := fun id' hid' => by
      rw [hwal] at hid'
      cases hid'
      exact ⟨hends.logBatch h.rising b, hle⟩
    unflushed := fun hsome => hrecords _ _ hle (h.unflushed hsome)
    unsealed := fun hsome himm => hrecords _ _ (h.bound id hwal himm).right (h.unsealed hsome himm)
    disabled := fun _ hnone => by
      rw [hwal] at hnone
      cases hnone }

theorem flush (h : c.Logs sb mb) (hclosed : c.closed = false) {cap : Captured}
    (himm : c.imm.isSome) (hbound : cap.bound = c.immBound) (hle : c.logNumber ≤ cap.bound)
    {fs : List Flusher}
    (hfs : forall cap', .running cap' .pruning ∈ fs ->
      .running cap' .pruning ∈ c.flushers ∨ cap' = cap) :
    Logs { c with logNumber := cap.bound, imm := none, flushers := fs } [] mb := by
  have hnotClosed : ¬ c.closed = true := by
    rw [hclosed]
    exact Bool.false_ne_true
  have hpruning : forall cap', .running cap' .pruning ∈ fs -> cap'.bound ≤ cap.bound := by
    intro cap' hmem
    rcases hfs cap' hmem with hmem | rfl
    · exact Nat.le_trans (h.pruning cap' hmem) hle
    · exact Nat.le_refl _
  cases hwal : c.wal with
  | none =>
      rcases h.disabled hclosed hwal with ⟨hnil, hzero⟩
      have hbound : cap.bound = 0 := hbound.trans (hzero himm)
      have hnumber : c.logNumber = 0 := by lia
      exact {
        rising := h.rising
        anchored := Or.inl hbound
        pruning := hpruning
        off := fun hbad => absurd hbad hnotClosed
        closed := fun hbad => absurd hbad hnotClosed
        ends := fun _ hid => by cases hid
        unflushed := fun hsome => by cases hsome
        bound := fun _ _ hbad => by cases hbad
        unsealed := fun _ hbad => by cases hbad
        disabled := fun _ _ => by
          refine ⟨?_, fun hbad => by cases hbad⟩
          show opsOf (logged c.segments cap.bound) = []
          rw [hbound, ← hnumber]
          exact hnil }
  | some id =>
      have hsome : c.wal.isSome := by
        rw [hwal]
        rfl
      rcases h.ends id hwal with ⟨hends, _⟩
      rcases h.bound id hwal himm with ⟨_, hhigh⟩
      rw [← hbound] at hhigh
      exact {
        rising := h.rising
        anchored := by
          rcases hends with ⟨rest, bs, hsegments⟩
          refine Or.inr ⟨(id, bs), ?_, hhigh⟩
          show (id, bs) ∈ c.segments
          rw [hsegments]
          exact List.mem_append_right _ List.mem_cons_self
        pruning := hpruning
        off := fun hbad => absurd hbad hnotClosed
        closed := fun hbad => absurd hbad hnotClosed
        ends := fun id' hid' => by
          cases hid'
          exact ⟨hends, hhigh⟩
        unflushed := fun _ => by
          show Records _ cap.bound (opsOf mb)
          rw [hbound]
          exact h.unsealed hsome himm
        bound := fun _ _ hbad => by cases hbad
        unsealed := fun _ hbad => by cases hbad
        disabled := fun _ hnone => by cases hnone }

theorem poison (h : c.Logs sb mb) : Logs { c with bgErr := true } sb mb :=
  { h with
    closed := fun _ hbad => by cases hbad
    unflushed := fun hsome => (h.unflushed hsome).keep rfl fun hbad => by cases hbad
    unsealed := fun hsome himm => (h.unsealed hsome himm).keep rfl fun hbad => by cases hbad }

theorem sealFailed (h : c.Logs sb mb) (hnone : c.imm = none) :
    Logs { c with bgErr := true, immBound := 0 } sb mb := by
  have hvacant : ¬ c.imm.isSome := by
    rw [hnone]
    exact Bool.false_ne_true
  exact { h with
    closed := fun _ hbad => by cases hbad
    unflushed := fun hsome => (h.unflushed hsome).keep rfl fun hbad => by cases hbad
    bound := fun _ _ himm => absurd himm hvacant
    unsealed := fun _ himm => absurd himm hvacant
    disabled := fun hclosed hwal => ⟨(h.disabled hclosed hwal).left, fun _ => rfl⟩ }

theorem pruning_set (h : c.Logs sb mb) (j : Nat) {cap : Captured} {stage : FlushStage}
    (hstage : stage ≠ .pruning) (cap' : Captured)
    (hmem : .running cap' .pruning ∈ c.flushers.set j (.running cap stage)) :
    cap'.bound ≤ c.logNumber := by
  rcases List.mem_or_eq_of_mem_set hmem with hmem | heq
  · exact h.pruning cap' hmem
  · cases heq
    exact absurd rfl hstage

theorem prune (h : c.Logs sb mb) {bound : Nat} (hbound : bound ≤ c.logNumber) :
    Logs { c with segments := c.segments.filter fun s => bound ≤ s.1 } sb mb := by
  have hnumber : logged (c.segments.filter fun s => bound ≤ s.1) c.logNumber =
      logged c.segments c.logNumber := logged_prune hbound
  exact { h with
    rising := h.rising.filter _
    anchored := by
      refine h.anchored.imp (fun hzero => hzero) ?_
      rintro ⟨s, hs, hle⟩
      exact ⟨s, List.mem_filter.mpr ⟨hs, decide_eq_true (Nat.le_trans hbound hle)⟩, hle⟩
    closed := fun hclosed hbgErr => by
      show opsOf (logged (c.segments.filter fun s => bound ≤ s.1) c.logNumber) = []
      rw [hnumber]
      exact h.closed hclosed hbgErr
    ends := fun id hwal => by
      rcases h.ends id hwal with ⟨hends, hle⟩
      exact ⟨hends.prune (Nat.le_trans hbound hle), hle⟩
    unflushed := fun hsome => (h.unflushed hsome).keep hnumber fun hb => hb
    unsealed := fun hsome himm => by
      rcases Option.isSome_iff_exists.mp hsome with ⟨id, hwal⟩
      exact (h.unsealed hsome himm).keep
        (logged_prune (Nat.le_trans hbound (h.bound id hwal himm).left)) fun hb => hb
    disabled := fun hclosed hwal => by
      show opsOf (logged (c.segments.filter fun s => bound ≤ s.1) c.logNumber) = [] ∧ _
      rw [hnumber]
      exact h.disabled hclosed hwal }

theorem flushDone (h : c.Logs sb mb) (hopen : c.closed = false) {j : Nat} {cap : Captured}
    (hj : c.flushers[j]? = some (.running cap .pruning)) (pruned : Bool) :
    Logs { c with
      segments :=
        if c.wal.isSome ∧ pruned then c.segments.filter fun s => cap.bound ≤ s.1 else c.segments
      bgErr := c.bgErr || !pruned
      flushers := c.flushers.eraseIdx j } sb mb := by
  have hnotClosed : ¬ c.closed = true := by
    rw [hopen]
    exact Bool.false_ne_true
  have hpruning : forall cap', .running cap' .pruning ∈ c.flushers.eraseIdx j ->
      cap'.bound ≤ c.logNumber :=
    fun cap' hmem => h.pruning cap' (List.mem_of_mem_eraseIdx hmem)
  have hhealthy : (c.bgErr || !pruned) = false -> c.bgErr = false :=
    fun h => (Bool.or_eq_false_iff.mp h).left
  split
  · have hprune := h.prune (h.pruning cap (List.mem_of_getElem? hj))
    exact { hprune with
      pruning := hpruning
      closed := fun hbad => absurd hbad hnotClosed
      unflushed := fun hsome => (hprune.unflushed hsome).keep rfl hhealthy
      unsealed := fun hsome himm => (hprune.unsealed hsome himm).keep rfl hhealthy }
  · exact { h with
      pruning := hpruning
      closed := fun hbad => absurd hbad hnotClosed
      unflushed := fun hsome => (h.unflushed hsome).keep rfl hhealthy
      unsealed := fun hsome himm => (h.unsealed hsome himm).keep rfl hhealthy }

theorem close (h : c.Logs sb mb) (hcut : c.Cut fb sb mb)
    (hdrained : c.bgErr = true ∨ c.imm = none ∧ c.mem.size = 0) :
    Logs { c with closed := true, wal := none } sb mb where
  rising := h.rising
  anchored := h.anchored
  pruning := h.pruning
  off := fun _ => rfl
  closed := by
    intro _ hbgErr
    show opsOf (logged c.segments c.logNumber) = []
    have hbgErr : c.bgErr = false := hbgErr
    rw [hbgErr] at hdrained
    rcases hdrained with hbad | ⟨himm, hsize⟩
    · cases hbad
    · have hsb := hcut.vacant himm
      have hmb := hcut.mem.empty.mp hsize
      cases hwal : c.wal with
      | some id =>
          rw [(h.unflushed (by rw [hwal]; rfl)).eq hbgErr, hsb, hmb]
          rfl
      | none =>
          cases hclosed : c.closed with
          | true => exact h.closed hclosed hbgErr
          | false => exact (h.disabled hclosed hwal).left
  ends := fun _ hid => by cases hid
  unflushed := fun hsome => by cases hsome
  bound := fun _ hid => by cases hid
  unsealed := fun hsome => by cases hsome
  disabled := fun hbad => by cases hbad

end Logs

end Core

end Engine
end Basalt
