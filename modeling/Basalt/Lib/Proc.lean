import Mathlib.Data.List.Basic

/-!
# Programs over a durable state

A program changes a state that outlives it, one durable step after the other.
It can be stopped after any of them: what it leaves behind then is one of the
states it passes.
-/

namespace Basalt
namespace Lib

/-- What a program does from one state: the states it passes, the state it
ends in, and what it returns. -/
structure Passage (σ α : Type) where
  passed : List σ
  final : σ
  result : α

def Proc (σ α : Type) : Type :=
  σ -> Passage σ α

namespace Proc

variable {σ α β : Type}

protected def pure (a : α) : Proc σ α := fun s =>
  { passed := [], final := s, result := a }

protected def bind (p : Proc σ α) (f : α -> Proc σ β) : Proc σ β := fun s =>
  let first := p s
  let second := f first.result first.final
  { second with passed := first.passed ++ second.passed }

instance : Monad (Proc σ) where
  pure := Proc.pure
  bind := Proc.bind

def get : Proc σ σ := fun s =>
  { passed := [], final := s, result := s }

def step (f : σ -> σ) : Proc σ Unit := fun s =>
  { passed := [f s], final := f s, result := () }

def orFail {ε : Type} (p : Proc σ (Except ε α)) (fail : ε -> Proc σ β)
    (next : α -> Proc σ β) : Proc σ β :=
  p >>= fun r =>
    match r with
    | .error e => fail e
    | .ok a => next a

/-- What a program leaves behind that is stopped after at most `n` steps. -/
def stopped (p : Proc σ α) (n : Nat) (s : σ) : σ :=
  (s :: (p s).passed).getD n (p s).final

/-!
## The course of a program

Sequencing concatenates the states passed, so that the course of a program is
put together from those of its parts.
-/

/-- From `s`, the program passes the states `ts`, ends in `s'` and returns
`a`. -/
def Takes (p : Proc σ α) (s : σ) (ts : List σ) (s' : σ) (a : α) : Prop :=
  p s = { passed := ts, final := s', result := a }

variable {p : Proc σ α} {s s' s'' : σ} {ts us : List σ} {a : α} {b : β}

theorem Takes.pure (a : α) (s : σ) : Takes (pure a : Proc σ α) s [] s a :=
  rfl

theorem Takes.get (s : σ) : Takes get s [] s s :=
  rfl

theorem Takes.step (f : σ -> σ) (s : σ) : Takes (step f) s [f s] (f s) () :=
  rfl

theorem Takes.bind {f : α -> Proc σ β} (hp : Takes p s ts s' a)
    (hf : Takes (f a) s' us s'' b) : Takes (p >>= f) s (ts ++ us) s'' b := by
  rw [Takes] at hp hf ⊢
  show Proc.bind p f s = _
  rw [Proc.bind, hp]
  show { f a s' with passed := ts ++ (f a s').passed } = _
  rw [hf]

theorem Takes.after {f : α -> Proc σ β} (hp : Takes p s [] s a)
    (hf : Takes (f a) s us s'' b) : Takes (p >>= f) s us s'' b :=
  hp.bind hf

theorem Takes.orFail {ε : Type} {p : Proc σ (Except ε α)} {fail : ε -> Proc σ β}
    {next : α -> Proc σ β} (hp : Takes p s ts s' (.ok a))
    (hnext : Takes (next a) s' us s'' b) :
    Takes (p.orFail fail next) s (ts ++ us) s'' b :=
  hp.bind hnext

theorem final_orFail {ε : Type} {p : Proc σ (Except ε α)} {fail : ε -> Proc σ β}
    {next : α -> Proc σ β} (hfail : forall e s, (fail e s).final = s)
    (hnext : forall a s, (next a s).final = s) (s : σ) :
    (p.orFail fail next s).final = (p s).final := by
  rw [Proc.orFail]
  show (Proc.bind p _ s).final = _
  rw [Proc.bind]
  cases hr : (p s).result with
  | error e => exact hfail e _
  | ok a => exact hnext a _

/-- A program is stopped where it started, in a state it passed, or where it
ended. -/
theorem Takes.stopped {n : Nat} (h : Takes p s ts s' a) :
    p.stopped n s = s ∨ p.stopped n s ∈ ts ∨ p.stopped n s = s' := by
  have hpass : p s = { passed := ts, final := s', result := a } := h
  rw [Proc.stopped, hpass]
  cases n with
  | zero => exact Or.inl rfl
  | succ n =>
      rw [List.getD_cons_succ]
      cases hn : ts[n]? with
      | none =>
          rw [List.getD_eq_getElem?_getD, hn]
          exact Or.inr (Or.inr rfl)
      | some t =>
          rw [List.getD_eq_getElem?_getD, hn]
          exact Or.inr (Or.inl (List.mem_of_getElem? hn))

end Proc

end Lib
end Basalt
