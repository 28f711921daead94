import Basalt.Lib.Outcome
import Basalt.Lib.Varint

/-!
# Readers

A reader takes a value off the front of a buffer and returns the rest.  It is
local when what it returns depends on nothing but the bytes it took.

A reader that is written with indexes can also run out of its buffer.  The
slices of `Checked` fail where those of a machine panic, and `Safe` says that a
computation with them does not.
-/

namespace Basalt
namespace Lib

variable {ε ε' α β : Type}

abbrev Reader (ε α : Type) := Bytes -> Except ε (α × Bytes)

/-- The value that is read from these bytes, whatever follows them. -/
def Takes (read : Reader ε α) (seg : Bytes) (a : α) : Prop :=
  forall rest, read (seg ++ rest) = .ok (a, rest)

def Local (read : Reader ε α) : Prop :=
  forall buf a rest, read buf = .ok (a, rest) -> exists seg, buf = seg ++ rest ∧ Takes read seg a

namespace Local

variable {read : Reader ε α}

theorem ret (a : α) : Local fun buf => (.ok (a, buf) : Except ε (α × Bytes)) := by
  intro buf b rest h
  cases h
  exact ⟨[], rfl, fun _ => rfl⟩

theorem bind (h : Local read) {next : α -> Reader ε β} (hnext : forall a, Local (next a)) :
    Local fun buf => read buf >>= fun x => next x.1 x.2 := by
  intro buf b rest hread
  rcases bind_eq_ok.mp hread with ⟨⟨a, mid⟩, ha, hb⟩
  rcases h buf a mid ha with ⟨seg, rfl, hseg⟩
  rcases hnext a mid b rest hb with ⟨seg', rfl, hseg'⟩
  refine ⟨seg ++ seg', (List.append_assoc _ _ _).symm, fun rest' => ?_⟩
  show (read (seg ++ seg' ++ rest') >>= fun x => next x.1 x.2) = _
  rw [List.append_assoc, bind_of_ok (hseg _)]
  exact hseg' rest'

theorem mapError (h : Local read) (f : ε -> ε') : Local fun buf => (read buf).mapError f := by
  intro buf a rest hread
  rcases h buf a rest (mapError_eq_ok.mp hread) with ⟨seg, hbuf, hseg⟩
  exact ⟨seg, hbuf, fun rest' => mapError_eq_ok.mpr (hseg rest')⟩

theorem length_le (h : Local read) {buf rest : Bytes} {a : α} (hread : read buf = .ok (a, rest)) :
    rest.length ≤ buf.length := by
  rcases h buf a rest hread with ⟨seg, rfl, _⟩
  rw [List.length_append]
  exact Nat.le_add_left _ _

end Local

/-!
## Numbers
-/

theorem getDigits_local {n : Nat} {buf rest : Bytes} {x : Nat}
    (h : getDigits n buf = some (x, rest)) :
    exists seg, buf = seg ++ rest ∧
      forall rest', getDigits n (seg ++ rest') = some (x, rest') := by
  induction n generalizing buf x with
  | zero =>
      cases buf with
      | nil => cases h
      | cons b bs =>
          unfold getDigits at h
          split at h
          · cases h
          · next hb =>
              cases h
              refine ⟨[b], rfl, fun rest' => ?_⟩
              show (if 1 < b.toNat then none else some (b.toNat, rest')) = _
              rw [if_neg hb]
  | succ n ih =>
      cases buf with
      | nil => cases h
      | cons b bs =>
          unfold getDigits at h
          split at h
          · next hb =>
              cases h
              refine ⟨[b], rfl, fun rest' => ?_⟩
              rw [List.singleton_append, getDigits, if_pos hb]
          · next hb =>
              rcases Option.map_eq_some_iff.mp h with ⟨⟨y, mid⟩, hy, heq⟩
              cases heq
              rcases ih hy with ⟨seg, rfl, hseg⟩
              refine ⟨b :: seg, rfl, fun rest' => ?_⟩
              rw [List.cons_append, getDigits, if_neg hb, hseg]
              rfl

theorem getUvarint_local {buf rest : Bytes} {x : Nat} (h : getUvarint buf = some (x, rest)) :
    exists seg, buf = seg ++ rest ∧
      forall rest', getUvarint (seg ++ rest') = some (x, rest') :=
  getDigits_local h

def uvarint (buf : Bytes) : Option (Nat × Nat) :=
  (getUvarint buf).map fun x => (x.1, buf.length - x.2.length)

theorem uvarint_of_none {buf : Bytes} (h : getUvarint buf = none) : uvarint buf = none := by
  rw [uvarint, h]
  rfl

theorem uvarint_of_some {buf rest : Bytes} {x : Nat} (h : getUvarint buf = some (x, rest)) :
    exists w, uvarint buf = some (x, w) ∧ w ≤ buf.length ∧ buf.drop w = rest := by
  rcases getUvarint_local h with ⟨seg, rfl, _⟩
  refine ⟨seg.length, ?_, ?_, List.drop_left' rfl⟩
  · rw [uvarint, h, List.length_append, Option.map_some, Nat.add_sub_cancel]
  · rw [List.length_append]
    exact Nat.le_add_right _ _

/-!
## Slices
-/

inductive SlicePanic where
  | index (i length : Nat)
  | bounds (lo hi length : Nat)
deriving DecidableEq, Repr

abbrev Checked (ε α : Type) := ExceptT ε (Except SlicePanic) α

def byteAt (buf : Bytes) (i : Nat) : Checked ε UInt8 :=
  match buf[i]? with
  | some b => pure b
  | none => ExceptT.lift (.error (.index i buf.length))

def slice (buf : Bytes) (lo hi : Nat) : Checked ε Bytes :=
  if lo ≤ hi ∧ hi ≤ buf.length then pure ((buf.take hi).drop lo)
  else ExceptT.lift (.error (.bounds lo hi buf.length))

/-- The computation does not panic, and returns or fails like `y`. -/
def Safe (x : Checked ε α) (y : Except ε α) : Prop :=
  x.run = .ok y

namespace Safe

variable {x : Checked ε α} {y : Except ε α}

theorem ret (a : α) : Safe (pure a : Checked ε α) (.ok a) :=
  rfl

theorem throwing (e : ε) : Safe (throw e : Checked ε α) (.error e) :=
  rfl

theorem bind (h : Safe x y) {f : α -> Checked ε β} {g : α -> Except ε β}
    (hf : forall a, y = .ok a -> Safe (f a) (g a)) : Safe (x >>= f) (y >>= g) := by
  unfold Safe at h hf ⊢
  rw [ExceptT.run_bind, bind_of_ok h]
  cases y with
  | error e => rfl
  | ok a => exact hf a rfl

theorem step {a : α} (h : Safe x (.ok a)) {f : α -> Checked ε β} {z : Except ε β}
    (hf : Safe (f a) z) : Safe (x >>= f) z := by
  unfold Safe at h hf ⊢
  rw [ExceptT.run_bind, bind_of_ok h]
  exact hf

theorem adapt (h : Safe x y) (f : ε -> ε') : Safe (ExceptT.adapt f x) (y.mapError f) := by
  unfold Safe at h ⊢
  show (Except.mapError f <$> x.run) = _
  rw [h]
  rfl

end Safe

theorem safe_byteAt {b : UInt8} (bs : Bytes) :
    Safe (byteAt (b :: bs) 0 : Checked ε UInt8) (.ok b) :=
  rfl

theorem safe_slice {buf : Bytes} {lo hi : Nat} (hlo : lo ≤ hi) (hhi : hi ≤ buf.length) :
    Safe (slice buf lo hi : Checked ε Bytes) (.ok ((buf.take hi).drop lo)) := by
  unfold slice
  rw [if_pos ⟨hlo, hhi⟩]
  rfl

theorem safe_slice_length {buf : Bytes} {lo : Nat} (hlo : lo ≤ buf.length) :
    Safe (slice buf lo buf.length : Checked ε Bytes) (.ok (buf.drop lo)) := by
  have hall : Safe (slice buf lo buf.length : Checked ε Bytes)
      (.ok ((buf.take buf.length).drop lo)) := safe_slice hlo (Nat.le_refl _)
  rw [List.take_length] at hall
  exact hall

end Lib
end Basalt
