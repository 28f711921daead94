import Mathlib.Data.List.Basic

/-!
# Streams of framed records

A framing turns a payload into a frame that can be read back from the front of
a stream, while no proper beginning of a frame can.  A stream that was cut at
any point is therefore read back as the records that are complete in it,
followed by a torn rest.
-/

namespace Basalt
namespace Lib

def IsTorn {α : Type} (t f : List α) : Prop :=
  t <+: f ∧ t ≠ f

structure Framing (α : Type) where
  valid : List α -> Prop
  frame : List α -> List α
  next : List α -> Option (List α × List α)
  next_frame : forall {p rest}, valid p -> next (frame p ++ rest) = some (p, rest)
  next_torn : forall {p t}, valid p -> IsTorn t (frame p) -> next t = none
  next_sound : forall {buf p rest}, next buf = some (p, rest) ->
    valid p ∧ buf = frame p ++ rest
  frame_ne_nil : forall p, frame p ≠ []

namespace Framing

variable {α : Type} (F : Framing α)

def split : Nat -> List α -> List (List α) × List α
  | 0, buf => ([], buf)
  | n + 1, buf =>
      match F.next buf with
      | none => ([], buf)
      | some (p, rest) => (p :: (split n rest).1, (split n rest).2)

/-- Every record of a stream; a record is never empty, so the length of the
stream bounds their number. -/
def records (buf : List α) : List (List α) × List α :=
  F.split buf.length buf

def frames (ps : List (List α)) : List α :=
  (ps.map F.frame).flatten

variable {F}

@[simp]
theorem frames_nil : F.frames [] = [] := rfl

@[simp]
theorem frames_cons (p : List α) (ps : List (List α)) :
    F.frames (p :: ps) = F.frame p ++ F.frames ps := rfl

@[simp]
theorem frames_append (ps qs : List (List α)) :
    F.frames (ps ++ qs) = F.frames ps ++ F.frames qs := by
  simp [frames]

theorem next_length {buf p rest : List α} (h : F.next buf = some (p, rest)) :
    rest.length < buf.length := by
  have hpos := List.length_pos_of_ne_nil (F.frame_ne_nil p)
  rw [(F.next_sound h).right, List.length_append]
  lia

theorem split_of_length_le {n : Nat} {buf : List α} (h : buf.length ≤ n) :
    F.split n buf = F.records buf := by
  have same : forall (n m : Nat) (buf : List α), buf.length ≤ n ->
      buf.length ≤ m -> F.split n buf = F.split m buf := by
    intro n
    induction n with
    | zero =>
        intro m buf hn _
        cases m with
        | zero => rfl
        | succ m =>
            cases hnext : F.next buf with
            | none => simp [split, hnext]
            | some r =>
                have hlt := next_length hnext
                lia
    | succ n ih =>
        intro m buf hn hm
        cases hnext : F.next buf with
        | none => cases m <;> simp [split, hnext]
        | some r =>
            have hlt := next_length hnext
            cases m with
            | zero => lia
            | succ m =>
                have hrest := ih m r.2 (by lia) (by lia)
                simp [split, hnext, hrest]
  exact same n buf.length buf h (Nat.le_refl _)

theorem records_of_next_none {buf : List α} (h : F.next buf = none) :
    F.records buf = ([], buf) := by
  rw [← split_of_length_le (Nat.le_succ buf.length), split, h]

theorem records_of_next_some {buf p rest : List α}
    (h : F.next buf = some (p, rest)) :
    F.records buf = (p :: (F.records rest).1, (F.records rest).2) := by
  have hlt := next_length h
  have hrest : F.split buf.length rest = F.records rest :=
    split_of_length_le (Nat.le_of_lt hlt)
  rw [← split_of_length_le (Nat.le_succ buf.length), split, h]
  simp only [hrest]

theorem records_frames_append {ps : List (List α)} (h : forall p, p ∈ ps -> F.valid p)
    (rest : List α) :
    F.records (F.frames ps ++ rest) = (ps ++ (F.records rest).1, (F.records rest).2) := by
  induction ps with
  | nil => rfl
  | cons p ps ih =>
      have hnext : F.next (F.frames (p :: ps) ++ rest) =
          some (p, F.frames ps ++ rest) := by
        rw [frames_cons, List.append_assoc]
        exact F.next_frame (h p List.mem_cons_self)
      rw [records_of_next_some hnext,
        ih (fun q hq => h q (List.mem_cons_of_mem p hq))]
      rfl

theorem records_frames_rest {ps : List (List α)} (h : forall p, p ∈ ps -> F.valid p)
    {rest : List α} (hrest : F.next rest = none) :
    F.records (F.frames ps ++ rest) = (ps, rest) := by
  rw [records_frames_append h, records_of_next_none hrest, List.append_nil]

theorem next_nil : F.next [] = none := by
  cases h : F.next [] with
  | none => rfl
  | some r =>
      have hlt := next_length h
      simp at hlt

@[simp]
theorem records_nil : F.records [] = ([], []) :=
  records_of_next_none next_nil

theorem records_frames {ps : List (List α)} (h : forall p, p ∈ ps -> F.valid p) :
    F.records (F.frames ps) = (ps, []) := by
  have hall := records_frames_append h []
  simpa using hall

theorem frames_records (buf : List α) :
    (forall p, p ∈ (F.records buf).1 -> F.valid p) ∧
      F.frames (F.records buf).1 ++ (F.records buf).2 = buf := by
  induction hn : buf.length using Nat.strongRecOn generalizing buf with
  | _ n ih =>
      cases hnext : F.next buf with
      | none =>
          rw [records_of_next_none hnext]
          simp
      | some r =>
          rcases F.next_sound hnext with ⟨hvalid, hbuf⟩
          have hlt := next_length hnext
          rcases ih r.2.length (by lia) r.2 rfl with ⟨hrest, heq⟩
          rw [records_of_next_some hnext]
          constructor
          · intro p hp
            rcases List.mem_cons.mp hp with rfl | hp
            · exact hvalid
            · exact hrest p hp
          · rw [frames_cons, List.append_assoc, heq, ← hbuf]

def Clean (F : Framing α) (buf : List α) : Prop :=
  (F.records buf).2 = []

theorem Clean.eq_frames {buf : List α} (h : F.Clean buf) :
    buf = F.frames (F.records buf).1 := by
  have hall := (frames_records (F := F) buf).right
  rw [h, List.append_nil] at hall
  exact hall.symm

theorem records_append {buf : List α} (h : F.Clean buf) (rest : List α) :
    F.records (buf ++ rest) =
      ((F.records buf).1 ++ (F.records rest).1, (F.records rest).2) := by
  have hall := records_frames_append (frames_records (F := F) buf).left rest
  rwa [← h.eq_frames] at hall

theorem Clean.append {buf : List α} (h : F.Clean buf) {ps : List (List α)}
    (hps : forall p, p ∈ ps -> F.valid p) : F.Clean (buf ++ F.frames ps) := by
  rw [Clean, records_append h, records_frames hps]

/-!
## Streams that were cut
-/

/-- What a cut can leave behind the last whole frame. -/
def Tail (F : Framing α) (t : List α) : Prop :=
  t = [] ∨ exists p, F.valid p ∧ IsTorn t (F.frame p)

theorem Tail.next {t : List α} (h : F.Tail t) : F.next t = none := by
  rcases h with rfl | ⟨p, hp, htorn⟩
  · exact next_nil
  · exact F.next_torn hp htorn

theorem Tail.of_pre {t u : List α} (h : F.Tail t) (hu : u <+: t) : F.Tail u := by
  rcases h with rfl | ⟨p, hp, hpre, hne⟩
  · exact Or.inl (List.prefix_nil.mp hu)
  · refine Or.inr ⟨p, hp, hu.trans hpre, ?_⟩
    intro heq
    rw [heq] at hu
    exact hne (hpre.eq_of_length_le hu.length_le)

theorem records_frames_tail {ps : List (List α)} (h : forall p, p ∈ ps -> F.valid p)
    {t : List α} (ht : F.Tail t) : F.records (F.frames ps ++ t) = (ps, t) :=
  records_frames_rest h ht.next

/-- The records of a stream that starts at `base`, each with the position of
its end. -/
def located (F : Framing α) : Nat -> List (List α) -> List (List α × Nat)
  | _, [] => []
  | base, p :: ps =>
      (p, base + (F.frame p).length) :: located F (base + (F.frame p).length) ps

@[simp]
theorem map_fst_located (base : Nat) (ps : List (List α)) :
    (F.located base ps).map Prod.fst = ps := by
  induction ps generalizing base with
  | nil => rfl
  | cons p ps ih => simp [located, ih]

theorem located_append (base : Nat) (ps qs : List (List α)) :
    F.located base (ps ++ qs) =
      F.located base ps ++ F.located (base + (F.frames ps).length) qs := by
  induction ps generalizing base with
  | nil => rfl
  | cons p ps ih => simp [located, ih, Nat.add_assoc]

theorem located_takeWhile (base keep : Nat) (ps : List (List α)) :
    exists qs, qs <+: ps ∧
      (F.located base ps).takeWhile (fun x => decide (x.2 ≤ keep)) =
        F.located base qs := by
  induction ps generalizing base with
  | nil => exact ⟨[], List.prefix_rfl, rfl⟩
  | cons p ps ih =>
      rcases ih (base + (F.frame p).length) with ⟨qs, hqs, heq⟩
      by_cases hle : base + (F.frame p).length ≤ keep
      · refine ⟨p :: qs, (List.prefix_cons_inj p).mpr hqs, ?_⟩
        simp [located, hle, heq]
      · refine ⟨[], List.nil_prefix, ?_⟩
        simp [located, hle]

/-- A stream that is cut keeps the records that end before the cut, and
nothing that could be taken for another one. -/
theorem take_frames {ps : List (List α)} (hps : forall p, p ∈ ps -> F.valid p)
    {t : List α} (ht : F.Tail t) {base keep : Nat} (hkeep : base ≤ keep) :
    exists u, F.Tail u ∧
      (F.frames ps ++ t).take (keep - base) =
        F.frames (((F.located base ps).takeWhile
          (fun x => decide (x.2 ≤ keep))).map Prod.fst) ++ u := by
  induction ps generalizing base with
  | nil => exact ⟨t.take (keep - base), ht.of_pre (List.take_prefix _ _), rfl⟩
  | cons p ps ih =>
      by_cases hle : base + (F.frame p).length ≤ keep
      · rcases ih (fun q hq => hps q (List.mem_cons_of_mem p hq)) hle with ⟨u, hu, heq⟩
        refine ⟨u, hu, ?_⟩
        have hcut : keep - base =
            (F.frame p).length + (keep - (base + (F.frame p).length)) := by lia
        rw [frames_cons, List.append_assoc, hcut, List.take_length_add_append, heq]
        simp [located, hle]
      · refine ⟨(F.frame p).take (keep - base), Or.inr ⟨p, hps p List.mem_cons_self,
          List.take_prefix _ _, ?_⟩, ?_⟩
        · intro heq
          have hlen := congrArg List.length heq
          rw [List.length_take] at hlen
          lia
        · rw [frames_cons, List.append_assoc, List.take_append_of_le_length (by lia)]
          simp [located, hle]

theorem take_frames_append {ps qs : List (List α)}
    (hqs : forall p, p ∈ qs -> F.valid p) {t : List α} (ht : F.Tail t) {keep : Nat}
    (hkeep : (F.frames ps).length ≤ keep) :
    exists rs u, rs <+: qs ∧ F.Tail u ∧
      (F.frames (ps ++ qs) ++ t).take keep = F.frames (ps ++ rs) ++ u := by
  rcases take_frames hqs ht hkeep with ⟨u, hu, hcut⟩
  rcases located_takeWhile (F := F) (F.frames ps).length keep qs with ⟨rs, hrs, hloc⟩
  rw [hloc, map_fst_located] at hcut
  refine ⟨rs, u, hrs, hu, ?_⟩
  have hsplit : keep = (F.frames ps).length + (keep - (F.frames ps).length) := by lia
  rw [frames_append, List.append_assoc, hsplit, List.take_length_add_append, hcut,
    frames_append, List.append_assoc]

end Framing

end Lib
end Basalt
