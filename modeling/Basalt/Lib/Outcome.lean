import Mathlib.Logic.Relation

/-!
# Outcomes of fallible operations

An operation of a program, given as a function into `Except`, is related to a
transition system: when it returns it has taken transitions, and when it fails
it has taken transitions to a state that is described as stuck.  An invariant
of the transition system that excludes stuck states then shows both what the
operation keeps and that it does not fail.
-/

namespace Basalt
namespace Lib

theorem bind_eq_ok {ε α β : Type} {x : Except ε α} {f : α -> Except ε β}
    {b : β} : (x >>= f) = .ok b <-> exists a, x = .ok a ∧ f a = .ok b := by
  cases x with
  | ok a =>
      constructor
      · exact fun h => ⟨a, rfl, h⟩
      · rintro ⟨a', ha, hf⟩
        cases ha
        exact hf
  | error e =>
      constructor
      · intro h
        cases h
      · rintro ⟨a, ha, _⟩
        cases ha

theorem bind_of_ok {ε α β : Type} {x : Except ε α} {a : α} (h : x = .ok a)
    (f : α -> Except ε β) : (x >>= f) = f a := by
  rw [h]
  rfl

theorem mapError_eq_ok {ε ε' α : Type} {x : Except ε α} {f : ε -> ε'} {a : α} :
    x.mapError f = .ok a <-> x = .ok a := by
  cases x with
  | ok b =>
      constructor
      · intro h
        cases h
        rfl
      · intro h
        cases h
        rfl
  | error e =>
      constructor
      · intro h
        cases h
      · intro h
        cases h

theorem foldlM_invariant {ε α β : Type} {f : β -> α -> Except ε β}
    {P : β -> Prop} {l : List α}
    (hstep : forall b a b', a ∈ l -> P b -> f b a = .ok b' -> P b')
    {b b' : β} (hb : P b) (h : l.foldlM f b = .ok b') : P b' := by
  induction l generalizing b with
  | nil =>
      cases h
      exact hb
  | cons a l ih =>
      rw [List.foldlM_cons] at h
      rcases bind_eq_ok.mp h with ⟨mid, hmid, hrest⟩
      exact ih (fun c d c' hd => hstep c d c' (List.mem_cons_of_mem a hd))
        (hstep b a mid List.mem_cons_self hb hmid) hrest

theorem mapM_ok {ε α β : Type} {f : α -> Except ε β} {g : α -> β} {l : List α}
    (h : forall a, a ∈ l -> f a = .ok (g a)) : l.mapM f = .ok (l.map g) := by
  induction l with
  | nil => rfl
  | cons a l ih =>
      rw [List.mapM_cons, h a List.mem_cons_self, ih fun b hb => h b (List.mem_cons_of_mem a hb)]
      rfl

theorem forM_eq_ok {ε α : Type} {f : α -> Except ε Unit} {l : List α} :
    l.forM f = .ok () <-> forall a, a ∈ l -> f a = .ok () := by
  induction l with
  | nil => exact ⟨fun _ a ha => (by cases ha), fun _ => rfl⟩
  | cons a l ih =>
      show (f a >>= fun _ => l.forM f) = .ok () <-> _
      rw [bind_eq_ok]
      constructor
      · rintro ⟨u, hu, hrest⟩ b hb
        rcases List.mem_cons.mp hb with rfl | hb
        · exact hu
        · exact ih.mp hrest b hb
      · intro h
        exact ⟨(), h a List.mem_cons_self, ih.mpr fun b hb => h b (List.mem_cons_of_mem a hb)⟩

/-!
Conditions on a computed result can be evaluated.
-/

namespace Evaluate

scoped instance decidableExistsSome {α : Type} {P : α -> Prop} [DecidablePred P]
    (o : Option α) : Decidable (exists a, o = some a ∧ P a) :=
  Option.decidableExistsMem o

scoped instance decidableForallSome {α : Type} {P : α -> Prop} [DecidablePred P]
    (o : Option α) : Decidable (forall a, o = some a -> P a) :=
  Option.decidableForallMem o

scoped instance decidableExistsOk {ε α : Type} :
    (x : Except ε α) -> Decidable (exists a, x = .ok a)
  | .ok a => isTrue ⟨a, rfl⟩
  | .error _ => isFalse fun ⟨_, h⟩ => by cases h

scoped instance decidableExistsOkWith {ε α : Type} {P : α -> Prop} [DecidablePred P] :
    (x : Except ε α) -> Decidable (exists a, x = .ok a ∧ P a)
  | .ok a => decidable_of_iff (P a)
      ⟨fun h => ⟨a, rfl, h⟩, fun ⟨_, ha, h⟩ => (by cases ha; exact h)⟩
  | .error _ => isFalse fun ⟨_, h, _⟩ => by cases h

scoped instance decidableForallOk {ε α : Type} {P : α -> Prop} [DecidablePred P] :
    (x : Except ε α) -> Decidable (forall a, x = .ok a -> P a)
  | .ok a => decidable_of_iff (P a) ⟨fun h _ ha => (by cases ha; exact h), fun h => h a rfl⟩
  | .error _ => isTrue fun _ h => by cases h

end Evaluate

def okWith {ε α : Type} (x : Except ε α) (p : α -> Bool) : Bool :=
  match x with
  | .ok a => p a
  | .error _ => false

theorem exists_of_okWith {ε α : Type} {x : Except ε α} {p : α -> Bool}
    (h : okWith x p = true) : exists a, x = .ok a ∧ p a = true := by
  cases x with
  | ok a => exact ⟨a, rfl, h⟩
  | error e => cases h

def errorWith {ε α : Type} (x : Except ε α) (p : ε -> Bool) : Bool :=
  match x with
  | .ok _ => false
  | .error e => p e

theorem exists_of_errorWith {ε α : Type} {x : Except ε α} {p : ε -> Bool}
    (h : errorWith x p = true) : exists e, x = .error e ∧ p e = true := by
  cases x with
  | ok a => cases h
  | error e => exact ⟨e, rfl, h⟩

section

variable {σ α β ε : Type} {R : σ -> σ -> Prop} {stuck : σ -> Prop}
variable {view : α -> σ} {view' : β -> σ} {s s' : σ} {post post' : α -> Prop}

def Outcome (R : σ -> σ -> Prop) (stuck : σ -> Prop) (s : σ) (view : α -> σ)
    (post : α -> Prop) : Except ε α -> Prop
  | .ok a => Relation.ReflTransGen R s (view a) ∧ post a
  | .error _ => exists s', Relation.ReflTransGen R s s' ∧ stuck s'

namespace Outcome

theorem done {a : α} (hsteps : Relation.ReflTransGen R s (view a))
    (hpost : post a) :
    Outcome R stuck s view post (pure a : Except ε α) :=
  ⟨hsteps, hpost⟩

theorem fail {e : ε} (h : stuck s) :
    Outcome R stuck s view post (.error e : Except ε α) :=
  ⟨s, Relation.ReflTransGen.refl, h⟩

theorem after (hsteps : Relation.ReflTransGen R s s') {x : Except ε α}
    (h : Outcome R stuck s' view post x) : Outcome R stuck s view post x := by
  cases x with
  | ok a => exact ⟨hsteps.trans h.left, h.right⟩
  | error e =>
      rcases h with ⟨s'', hsteps', hstuck⟩
      exact ⟨s'', hsteps.trans hsteps', hstuck⟩

theorem bind_eq {Q : β -> Prop} {x : Except ε α} {f : α -> Except ε β}
    (h : Outcome R stuck s view post x)
    (hf : forall a, x = .ok a -> post a -> Outcome R stuck (view a) view' Q (f a)) :
    Outcome R stuck s view' Q (x >>= f) := by
  cases x with
  | ok a => exact (hf a rfl h.right).after h.left
  | error e => exact h

theorem bind {Q : β -> Prop} {x : Except ε α} {f : α -> Except ε β}
    (h : Outcome R stuck s view post x)
    (hf : forall a, post a -> Outcome R stuck (view a) view' Q (f a)) :
    Outcome R stuck s view' Q (x >>= f) :=
  bind_eq h fun a _ ha => hf a ha

theorem mono {x : Except ε α} (h : Outcome R stuck s view post x)
    (hpost : forall a, post a -> post' a) :
    Outcome R stuck s view post' x := by
  cases x with
  | ok a => exact ⟨h.left, hpost a h.right⟩
  | error e => exact h

theorem foldlM {γ : Type} (view : α -> σ) {f : α -> γ -> Except ε α} {xs : List γ}
    (hf : forall a x, x ∈ xs -> post a ->
      Outcome R stuck (view a) view post (f a x))
    {a : α} (ha : post a) :
    Outcome R stuck (view a) view post (xs.foldlM f a) := by
  induction xs generalizing a with
  | nil => exact ⟨Relation.ReflTransGen.refl, ha⟩
  | cons x xs ih =>
      rw [List.foldlM_cons]
      apply bind (hf a x (by simp) ha)
      intro a' ha'
      exact ih (fun b y hy => hf b y (List.mem_cons_of_mem x hy)) ha'

theorem returned {x : Except ε α} {a : α} (h : Outcome R stuck s view post x)
    (hx : x = .ok a) : Relation.ReflTransGen R s (view a) ∧ post a := by
  subst hx
  exact h

/-- The use of an outcome: a property that the transitions keep and that
excludes stuck states holds after the operation, which does not fail. -/
theorem safe {I : σ -> Prop} {x : Except ε α}
    (h : Outcome R stuck s view post x)
    (hstep : forall s s', I s -> R s s' -> I s')
    (hstuck : forall s, I s -> ¬ stuck s) (hs : I s) :
    exists a, x = .ok a ∧ I (view a) ∧ post a := by
  have hsteps : forall {s'}, Relation.ReflTransGen R s s' -> I s' := by
    intro s' hsteps
    induction hsteps with
    | refl => exact hs
    | tail _ hlast ih => exact hstep _ _ ih hlast
  cases x with
  | ok a => exact ⟨a, rfl, hsteps h.left, h.right⟩
  | error e =>
      rcases h with ⟨s', hreach, hbad⟩
      exact absurd hbad (hstuck s' (hsteps hreach))

end Outcome

end

end Lib
end Basalt
