import Basalt.Lib.Outcome

/-!
# Runs of an executable system

A system is a function that executes an action in a state, or fails.  A guard
says which actions a run may take where; a run is a list of actions, and the
states it reaches are the subject of invariants.
-/

namespace Basalt
namespace Lib

section

variable {σ α ε : Type} (exec : σ -> α -> Except ε σ) (guard : σ -> α -> Prop)

/-- The states reached from `s` by actions that meet the guard where they are
taken. -/
inductive Reach (s : σ) : σ -> Prop where
  | start : Reach s s
  | step {t t' : σ} {a : α} :
      Reach s t -> guard t a -> exec t a = .ok t' -> Reach s t'

/-- A run given by its actions; it stops at an action that does not meet the
guard. -/
def runWhile [forall s a, Decidable (guard s a)] : List α -> σ -> Except ε σ
  | [], s => .ok s
  | a :: as, s =>
      if guard s a then do
        let s <- exec s a
        runWhile as s
      else .ok s

variable {exec guard}

theorem Reach.trans {s t u : σ} (h : Reach exec guard s t)
    (h' : Reach exec guard t u) : Reach exec guard s u := by
  induction h' with
  | start => exact h
  | step _ hguard hexec ih => exact Reach.step ih hguard hexec

theorem Reach.mono {guard' : σ -> α -> Prop} {s t : σ} (h : Reach exec guard s t)
    (hguard : forall s a, guard s a -> guard' s a) : Reach exec guard' s t := by
  induction h with
  | start => exact Reach.start
  | step _ ha hexec ih => exact Reach.step ih (hguard _ _ ha) hexec

theorem Reach.of_runWhile [forall s a, Decidable (guard s a)] {as : List α}
    {s t : σ} (h : runWhile exec guard as s = .ok t) : Reach exec guard s t := by
  induction as generalizing s with
  | nil =>
      cases h
      exact Reach.start
  | cons a as ih =>
      rw [runWhile] at h
      split at h
      · next hguard =>
          rcases bind_eq_ok.mp h with ⟨mid, hmid, hrest⟩
          exact (Reach.step Reach.start hguard hmid).trans (ih hrest)
      · cases h
        exact Reach.start

/-- What every guarded step keeps holds in every state reached. -/
theorem Reach.invariant {I : σ -> Prop}
    (hstep : forall s a s', I s -> guard s a -> exec s a = .ok s' -> I s')
    {s t : σ} (h : Reach exec guard s t) (hs : I s) : I t := by
  induction h with
  | start => exact hs
  | step _ hguard hexec ih => exact hstep _ _ _ ih hguard hexec

end

/-!
## Simulation

A system that never fails is compared with a transition relation: the run of
the system is matched, action by action, by a run of the relation.
-/

section

variable {σ τ α : Type}

inductive Along (step : σ -> α -> σ -> Prop) : σ -> List α -> σ -> Prop where
  | nil {s : σ} : Along step s [] s
  | cons {s t u : σ} {a : α} {as : List α} :
      step s a t -> Along step t as u -> Along step s (a :: as) u

def Guarded (exec : τ -> α -> τ) (guard : τ -> α -> Prop) : τ -> List α -> Prop
  | _, [] => True
  | t, a :: as => guard t a ∧ Guarded exec guard (exec t a) as

instance (exec : τ -> α -> τ) (guard : τ -> α -> Prop) [forall t a, Decidable (guard t a)] :
    (t : τ) -> (as : List α) -> Decidable (Guarded exec guard t as)
  | _, [] => isTrue trivial
  | t, a :: as =>
      match (inferInstance : Decidable (guard t a)) with
      | isTrue h =>
          match instDecidableGuarded exec guard (exec t a) as with
          | isTrue h' => isTrue ⟨h, h'⟩
          | isFalse h' => isFalse fun hall => h' hall.right
      | isFalse h => isFalse fun hall => h hall.left

theorem Guarded.append {exec : τ -> α -> τ} {guard : τ -> α -> Prop} {t : τ}
    {as bs : List α} (has : Guarded exec guard t as)
    (hbs : Guarded exec guard (as.foldl exec t) bs) : Guarded exec guard t (as ++ bs) := by
  induction as generalizing t with
  | nil => exact hbs
  | cons a as ih => exact ⟨has.left, ih has.right hbs⟩

theorem Guarded.mono {exec : τ -> α -> τ} {guard guard' : τ -> α -> Prop} {t : τ}
    {as : List α} (h : Guarded exec guard t as)
    (hguard : forall t a, guard t a -> guard' t a) : Guarded exec guard' t as := by
  induction as generalizing t with
  | nil => exact trivial
  | cons a as ih => exact ⟨hguard t a h.left, ih h.right⟩

theorem Guarded.invariant {exec : τ -> α -> τ} {guard : τ -> α -> Prop} {I : τ -> Prop}
    (hstep : forall t a, I t -> guard t a -> I (exec t a)) {as : List α} {t : τ} (h : I t)
    (hguard : Guarded exec guard t as) : I (as.foldl exec t) := by
  induction as generalizing t with
  | nil => exact h
  | cons a as ih => exact ih (hstep t a h hguard.left) hguard.right

theorem Along.of_guarded {step : σ -> α -> σ -> Prop} {exec : τ -> α -> τ}
    {guard : τ -> α -> Prop} {R : τ -> σ -> Prop}
    (hstep : forall t s a, R t s -> guard t a -> exists s', step s a s' ∧ R (exec t a) s')
    {as : List α} {t : τ} {s : σ} (h : R t s) (hguard : Guarded exec guard t as) :
    exists s', Along step s as s' ∧ R (as.foldl exec t) s' := by
  induction as generalizing t s with
  | nil => exact ⟨s, Along.nil, h⟩
  | cons a as ih =>
      rcases hstep t s a h hguard.left with ⟨mid, hmid, hR⟩
      rcases ih hR hguard.right with ⟨s', hrun, hlast⟩
      exact ⟨s', Along.cons hmid hrun, hlast⟩

theorem Along.of_simulation {step : σ -> α -> σ -> Prop} {exec : τ -> α -> τ}
    {R : τ -> σ -> Prop}
    (hstep : forall t s a, R t s -> exists s', step s a s' ∧ R (exec t a) s')
    (as : List α) {t : τ} {s : σ} (h : R t s) :
    exists s', Along step s as s' ∧ R (as.foldl exec t) s' := by
  have hguard : forall t, Guarded exec (fun _ _ => True) t as := by
    induction as with
    | nil => exact fun _ => trivial
    | cons a as ih => exact fun t => ⟨trivial, ih (exec t a)⟩
  exact Along.of_guarded (fun t s a hR _ => hstep t s a hR) h (hguard t)

end

end Lib
end Basalt
