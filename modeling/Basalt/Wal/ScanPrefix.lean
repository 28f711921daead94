import Mathlib.Algebra.Ring.Nat
import Basalt.Wal.Record

/-!
# Scanning a file that was cut

A file is written as the frames of its payloads, and a crash can leave any
beginning of it behind.  The scan of that beginning hands the callback the
payloads whose frames were not cut, and nothing else.

The model of the loop counts its rounds; `Scans` is the loop without the
count.
-/

namespace Basalt
namespace Wal

open Lib

/-- The loop of the scan, from what is left of the file and the state of the
callback to what the loop leaves of both. -/
inductive Scans {σ ε : Type} (fn : σ -> Bytes -> Except ε σ) :
    Bytes -> σ -> Bytes × Except ε σ -> Prop where
  | done {rest : Bytes} {s : σ} (hend : ¬ rest.length > 0) : Scans fn rest s (rest, .ok s)
  | torn {rest : Bytes} {s : σ} (hmore : rest.length > 0) (hnext : nextRecord rest = none) :
      Scans fn rest s (rest, .ok s)
  | aborted {rest payload next : Bytes} {s : σ} {e : ε} (hmore : rest.length > 0)
      (hnext : nextRecord rest = some (payload, next)) (hfn : fn s payload = .error e) :
      Scans fn rest s (rest, .error e)
  | step {rest payload next : Bytes} {s s' : σ} {r : Bytes × Except ε σ}
      (hmore : rest.length > 0) (hnext : nextRecord rest = some (payload, next))
      (hfn : fn s payload = .ok s') (hrest : Scans fn next s' r) : Scans fn rest s r

section

variable {σ ε : Type} {fn : σ -> Bytes -> Except ε σ}

theorem scans_scanLoop {n : Nat} {rest : Bytes} (s : σ) (hn : rest.length ≤ n) :
    Scans fn rest s (scanLoop fn n rest s) := by
  induction n generalizing rest s with
  | zero => exact .done (Nat.not_lt.mpr hn)
  | succ n ih =>
      unfold scanLoop
      split
      · next hmore =>
          split
          · next hnext => exact .torn hmore hnext
          · next payload next hnext =>
              have hread : framing.next rest = some (payload, next) := hnext
              have hlt := Framing.next_length hread
              split
              · next e hfn => exact .aborted hmore hnext hfn
              · next s' hfn => exact .step hmore hnext hfn (ih s' (by lia))
      · next hend => exact .done hend

def recordCall (calls : List Bytes) (payload : Bytes) : Except Panic (List Bytes) :=
  .ok (calls ++ [payload])

theorem foldlM_recordCall (payloads calls : List Bytes) :
    payloads.foldlM recordCall calls = .ok (calls ++ payloads) := by
  induction payloads generalizing calls with
  | nil =>
      rw [List.append_nil]
      rfl
  | cons payload payloads ih =>
      rw [List.foldlM_cons]
      show payloads.foldlM recordCall (calls ++ [payload]) = _
      rw [ih, List.append_assoc]
      rfl

end

/-- The payloads whose frames end within the first `keep` bytes of the file
made of all frames. -/
def whole (payloads : List Bytes) (keep : Nat) : List Bytes :=
  ((framing.located 0 payloads).filter fun x => x.2 ≤ keep).map Prod.fst

theorem le_of_mem_located {base : Nat} {payloads : List Bytes} {x : Bytes × Nat}
    (hx : x ∈ framing.located base payloads) : base ≤ x.2 := by
  induction payloads generalizing base with
  | nil => cases hx
  | cons payload payloads ih =>
      rcases List.mem_cons.mp hx with rfl | hx
      · exact Nat.le_add_right _ _
      · exact Nat.le_trans (Nat.le_add_right _ _) (ih hx)

theorem filter_located (base keep : Nat) (payloads : List Bytes) :
    ((framing.located base payloads).filter fun x => x.2 ≤ keep) =
      (framing.located base payloads).takeWhile fun x => decide (x.2 ≤ keep) := by
  induction payloads generalizing base with
  | nil => rfl
  | cons payload payloads ih =>
      unfold Framing.located
      by_cases hle : base + (framing.frame payload).length ≤ keep
      · rw [List.filter_cons_of_pos (by simpa using hle),
          List.takeWhile_cons_of_pos (by simpa using hle), ih]
      · rw [List.filter_cons_of_neg (by simpa using hle),
          List.takeWhile_cons_of_neg (by simpa using hle)]
        apply List.filter_eq_nil_iff.mpr
        intro x hx hend
        exact hle (Nat.le_trans (le_of_mem_located hx) (of_decide_eq_true hend))

theorem foldlM_appendRecord {payloads : List Bytes} (dst : Bytes)
    (h : forall payload, payload ∈ payloads -> framing.valid payload) :
    payloads.foldlM appendRecord dst = .ok (dst ++ (payloads.map frame).flatten) := by
  induction payloads generalizing dst with
  | nil =>
      rw [List.map_nil, List.flatten_nil, List.append_nil]
      rfl
  | cons payload payloads ih =>
      rw [List.foldlM_cons, appendRecord_of_le (h payload List.mem_cons_self)]
      show payloads.foldlM appendRecord (dst ++ frame payload) = _
      rw [ih _ fun q hq => h q (List.mem_cons_of_mem payload hq), List.append_assoc]
      rfl

theorem records_cut {payloads : List Bytes}
    (h : forall payload, payload ∈ payloads -> framing.valid payload) {buf : Bytes}
    (hbuf : buf <+: (payloads.map frame).flatten) :
    (framing.records buf).1 = whole payloads buf.length := by
  have hnone : framing.Tail [] := Or.inl rfl
  rcases Framing.take_frames h hnone (Nat.zero_le buf.length) with ⟨rest, hrest, htake⟩
  rw [List.append_nil, Nat.sub_zero] at htake
  have hcut : framing.frames (whole payloads buf.length) ++ rest = buf := by
    rw [whole, filter_located, ← htake]
    exact (List.prefix_iff_eq_take.mp hbuf).symm
  have hvalid : forall payload, payload ∈ whole payloads buf.length -> framing.valid payload := by
    intro payload hmem
    rcases List.mem_map.mp hmem with ⟨x, hx, rfl⟩
    have hfst := List.mem_map_of_mem (f := Prod.fst) (List.mem_of_mem_filter hx)
    rw [Framing.map_fst_located] at hfst
    exact h _ hfst
  have hrecords := Framing.records_frames_tail hvalid hrest
  rw [hcut] at hrecords
  rw [hrecords]

theorem length_frames (payloads : List Bytes) :
    (framing.frames payloads).length = (payloads.map fun p => (frame p).length).sum := by
  unfold Framing.frames
  rw [List.length_flatten, List.map_map]
  rfl

/-- The scan of any beginning of a file of records calls back on the payloads
whose frames are whole, in order, and returns their length.  It ends on every
file. -/
theorem scanRecords_cut {σ ε : Type} (fn : σ -> Bytes -> Except ε σ) (s : σ)
    (payloads : List Bytes) (hshort : forall payload, payload ∈ payloads -> payload.length < 2 ^ 32) :
    payloads.foldlM appendRecord [] = .ok (payloads.map frame).flatten ∧
      (forall buf, buf <+: (payloads.map frame).flatten ->
        scanRecords recordCall buf [] =
          (((whole payloads buf.length).map fun p => (frame p).length).sum,
            .ok (whole payloads buf.length)) ∧
        (scanRecords fn buf s).2 = (whole payloads buf.length).foldlM fn s ∧
        (forall s', (scanRecords fn buf s).2 = .ok s' ->
          (scanRecords fn buf s).1 =
            ((whole payloads buf.length).map fun p => (frame p).length).sum)) ∧
      forall buf, Scans fn buf s (scanLoop fn buf.length buf s) := by
  have hvalid : forall payload, payload ∈ payloads -> framing.valid payload :=
    fun payload hp => Nat.le_of_lt_succ (hshort payload hp)
  refine ⟨foldlM_appendRecord [] hvalid, fun buf hbuf => ?_,
    fun buf => scans_scanLoop s (Nat.le_refl _)⟩
  have hread := records_cut hvalid hbuf
  have hcalls : (scanRecords recordCall buf []).2 = .ok (whole payloads buf.length) := by
    rw [scanRecords_snd, hread, foldlM_recordCall]
    rfl
  have hclean : forall {τ δ : Type} {g : τ -> Bytes -> Except δ τ} {a b : τ},
      (scanRecords g buf a).2 = .ok b -> (scanRecords g buf a).1 =
        ((whole payloads buf.length).map fun p => (frame p).length).sum := by
    intro τ δ g a b hok
    rw [scanRecords_fst hok, hread, length_frames]
  refine ⟨Prod.ext (hclean hcalls) hcalls, ?_, fun s' hok => hclean hok⟩
  rw [scanRecords_snd, hread]

/-- Three records, cut inside the header of the third. -/
theorem scanRecords_cut_header :
    scanRecords recordCall (([[1], [], [2, 3]].map frame).flatten.take 20) [] =
      (17, .ok [[1], []]) := by
  have hall := scanRecords_cut recordCall [] [[1], [], [2, 3]] (by decide)
  have hcut := (hall.right.left _ (List.take_prefix 20 _)).left
  have hwhole : whole [[1], [], [2, 3]] (([[1], [], [2, 3]].map frame).flatten.take 20).length =
      [[1], []] := by
    decide +kernel
  have hsum : (([[1], []] : List Bytes).map fun p => (frame p).length).sum = 17 := by
    decide +kernel
  rw [hwhole, hsum] at hcut
  exact hcut

end Wal
end Basalt
