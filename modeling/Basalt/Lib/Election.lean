import Mathlib.Logic.Function.Basic
import Mathlib.Logic.Relation
import Basalt.Lib.Quorum

/-!
# Elections among nodes that crash

An abstract protocol that elects at most one leader per term.  A node casts
votes in memory, saves its term and its vote from time to time, and goes back
to what it saved when it crashes.  A vote counts for others only after a save:
until then it is `staged` and a crash forgets it.

The tally of a node is volatile, and nothing is assumed about when it is
cleared.  What makes elections safe is that a counted vote of another node was
saved, and that the candidate itself had saved its own vote before it asked.
-/

namespace Basalt
namespace Lib
namespace Election

structure Voter (node : Type _) where
  term : Nat
  vote : Option node
  /-- The votes counted for the own campaign of the term. -/
  tally : Finset node
  savedTerm : Nat
  savedVote : Option node
  /-- The votes cast since the last save: term, candidate. -/
  staged : Nat -> node -> Prop

structure State (node : Type _) where
  voter : node -> Voter node
  /-- The votes that were saved: voter, term, candidate. -/
  cast : node -> Nat -> node -> Prop
  /-- The leaders there ever were. -/
  led : node -> Nat -> Prop

section

variable {node : Type _} [DecidableEq node]

namespace Voter

def pledge (x : Voter node) (c : node) : Voter node :=
  { x with
    vote := some c
    staged := fun t c' => x.staged t c' ∨ (t = x.term ∧ c' = c) }

def adopt (x : Voter node) (t : Nat) : Voter node :=
  { x with term := t, vote := none, tally := ∅ }

def campaign (x : Voter node) (n : node) : Voter node :=
  { (x.adopt (x.term + 1)).pledge n with tally := {n} }

def count (x : Voter node) (v : node) : Voter node :=
  { x with tally := insert v x.tally }

def save (x : Voter node) : Voter node :=
  { x with
    savedTerm := x.term
    savedVote := x.vote
    staged := fun _ _ => False }

def crash (x : Voter node) : Voter node :=
  { x with
    term := x.savedTerm
    vote := x.savedVote
    tally := ∅
    staged := fun _ _ => False }

end Voter

namespace State

def set (s : State node) (n : node) (x : Voter node) : State node :=
  { s with voter := Function.update s.voter n x }

theorem set_voter (s : State node) (n : node) (x : Voter node) :
    (s.set n x).voter n = x :=
  Function.update_self _ _ _

def save (s : State node) (n : node) : State node :=
  { s.set n (s.voter n).save with
    cast := fun v t c => s.cast v t c ∨ (v = n ∧ (s.voter n).staged t c) }

end State

variable (voters : Finset node)

inductive Step (n : node) : State node -> State node -> Prop where
  /-- A node learns of a higher term. -/
  | adopt {s : State node} {t : Nat} :
      (s.voter n).term < t -> Step n s (s.set n ((s.voter n).adopt t))
  /-- A node opens a campaign and votes for itself. -/
  | campaign {s : State node} :
      Step n s (s.set n ((s.voter n).campaign n))
  /-- A node votes for a candidate that has asked for it. -/
  | grant {s : State node} {c : node} :
      s.cast c (s.voter n).term c ->
      (s.voter n).vote = none ∨ (s.voter n).vote = some c ->
      Step n s (s.set n ((s.voter n).pledge c))
  /-- A vote arrives. -/
  | count {s : State node} {v : node} :
      s.cast v (s.voter n).term n ->
      Step n s (s.set n ((s.voter n).count v))
  | lead {s : State node} :
      n ∈ voters -> IsQuorum voters (s.voter n).tally ->
      Step n s
        { s with
          led := fun m t => s.led m t ∨ (m = n ∧ t = (s.voter n).term) }
  | save {s : State node} :
      Step n s (s.save n)
  | crash {s : State node} :
      Step n s (s.set n (s.voter n).crash)

abbrev Steps (n : node) : State node -> State node -> Prop :=
  Relation.ReflTransGen (Step voters n)

end

/-!
## What stays
-/

section

variable {node : Type _} {voters : Finset node}
variable {s s' s'' : State node} {n m : node}

structure Grows (s s' : State node) : Prop where
  cast : forall {v t c}, s.cast v t c -> s'.cast v t c
  led : forall {m t}, s.led m t -> s'.led m t

theorem Grows.refl (s : State node) : Grows s s :=
  ⟨fun h => h, fun h => h⟩

theorem Grows.trans (h : Grows s s') (h' : Grows s' s'') : Grows s s'' :=
  ⟨fun hc => h'.cast (h.cast hc), fun hl => h'.led (h.led hl)⟩

theorem Step.grows [DecidableEq node] (h : Step voters n s s') : Grows s s' := by
  cases h with
  | lead => exact ⟨fun hc => hc, fun hl => Or.inl hl⟩
  | save => exact ⟨fun hc => Or.inl hc, fun hl => hl⟩
  | _ => exact ⟨fun hc => hc, fun hl => hl⟩

theorem Step.voter_ne [DecidableEq node] (h : Step voters n s s') (hm : m ≠ n) :
    s'.voter m = s.voter m := by
  cases h with
  | lead => rfl
  | _ => exact Function.update_of_ne hm _ _

theorem Steps.grows [DecidableEq node] (h : Steps voters n s s') : Grows s s' := by
  induction h with
  | refl => exact Grows.refl _
  | tail _ hlast ih => exact ih.trans hlast.grows

theorem Steps.voter_ne [DecidableEq node] (h : Steps voters n s s') (hm : m ≠ n) :
    s'.voter m = s.voter m := by
  induction h with
  | refl => rfl
  | tail _ hlast ih => exact (hlast.voter_ne hm).trans ih

/-!
## The invariant
-/

structure VoterOK (cast : node -> Nat -> node -> Prop) (n : node)
    (x : Voter node) : Prop where
  le : forall {t c}, cast n t c ∨ x.staged t c -> t ≤ x.term
  now : forall {c}, cast n x.term c ∨ x.staged x.term c -> x.vote = some c
  unique : forall {t c c'}, cast n t c ∨ x.staged t c ->
    cast n t c' ∨ x.staged t c' -> c = c'
  saved_le : forall {t c}, cast n t c -> t ≤ x.savedTerm
  saved_now : forall {c}, cast n x.savedTerm c -> x.savedVote = some c
  asked : forall {t c}, x.staged t c -> n ≠ c -> cast c t c
  tally : forall {v}, v ∈ x.tally ->
    cast v x.term n ∨ (v = n ∧ x.staged x.term n)

namespace VoterOK

variable {cast cast' : node -> Nat -> node -> Prop} {x : Voter node}

theorem adopt (h : VoterOK cast n x) {t : Nat} (ht : x.term < t) :
    VoterOK cast n (x.adopt t) := by
  refine { h with le := ?_, now := ?_, tally := ?_ }
  · intro u c hu
    exact Nat.le_trans (h.le hu) (Nat.le_of_lt ht)
  · intro c hc
    exact absurd ht (Nat.not_lt.mpr (h.le hc))
  · intro v hv
    exact absurd hv (Finset.notMem_empty v)

theorem pledge (h : VoterOK cast n x) {c : node}
    (hvote : x.vote = none ∨ x.vote = some c)
    (hasked : n ≠ c -> cast c x.term c) : VoterOK cast n (x.pledge c) := by
  have hsame : forall {c'}, cast n x.term c' ∨ x.staged x.term c' -> c' = c := by
    intro c' hc'
    have hnow := h.now hc'
    rcases hvote with hnone | hsome
    · rw [hnone] at hnow
      cases hnow
    · rw [hsome] at hnow
      exact (Option.some.inj hnow).symm
  have hcases : forall {t c'}, cast n t c' ∨ (x.pledge c).staged t c' ->
      (cast n t c' ∨ x.staged t c') ∨ (t = x.term ∧ c' = c) := by
    intro t c' hc'
    rcases hc' with hcast | hstaged | hnew
    · exact Or.inl (Or.inl hcast)
    · exact Or.inl (Or.inr hstaged)
    · exact Or.inr hnew
  refine { h with le := ?_, now := ?_, unique := ?_, asked := ?_, tally := ?_ }
  · intro t c' hc'
    rcases hcases hc' with hold | hnew
    · exact h.le hold
    · exact Nat.le_of_eq hnew.left
  · intro c' hc'
    rcases hcases hc' with hold | hnew
    · rw [hsame hold]
      rfl
    · rw [hnew.right]
      rfl
  · intro t c1 c2 h1 h2
    rcases hcases h1 with hold1 | ⟨rfl, rfl⟩
    · rcases hcases h2 with hold2 | ⟨rfl, rfl⟩
      · exact h.unique hold1 hold2
      · exact hsame hold1
    · rcases hcases h2 with hold2 | ⟨_, rfl⟩
      · exact (hsame hold2).symm
      · rfl
  · intro t c' hc' hne
    rcases hc' with hstaged | ⟨rfl, rfl⟩
    · exact h.asked hstaged hne
    · exact hasked hne
  · intro v hv
    rcases h.tally hv with hcast | ⟨hv, hstaged⟩
    · exact Or.inl hcast
    · exact Or.inr ⟨hv, Or.inl hstaged⟩

theorem campaign (h : VoterOK cast n x) : VoterOK cast n (x.campaign n) := by
  have hnext := (h.adopt (Nat.lt_succ_self x.term)).pledge (c := n)
    (Or.inl rfl) (fun hne => absurd rfl hne)
  refine { hnext with tally := ?_ }
  intro v hv
  exact Or.inr ⟨Finset.mem_singleton.mp hv, Or.inr ⟨rfl, rfl⟩⟩

theorem count [DecidableEq node] (h : VoterOK cast n x) {v : node} (hv : cast v x.term n) :
    VoterOK cast n (x.count v) := by
  refine { h with tally := ?_ }
  intro u hu
  rcases Finset.mem_insert.mp hu with rfl | hu
  · exact Or.inl hv
  · exact h.tally hu

theorem crash (h : VoterOK cast n x) : VoterOK cast n x.crash where
  le := by
    rintro t c (hcast | hfalse)
    · exact h.saved_le hcast
    · exact hfalse.elim
  now := by
    rintro c (hcast | hfalse)
    · exact h.saved_now hcast
    · exact hfalse.elim
  unique := by
    rintro t c c' (hcast | hfalse) (hcast' | hfalse')
    · exact h.unique (Or.inl hcast) (Or.inl hcast')
    · exact hfalse'.elim
    · exact hfalse.elim
    · exact hfalse.elim
  saved_le := h.saved_le
  saved_now := h.saved_now
  asked := fun hfalse => hfalse.elim
  tally := fun hv => absurd hv (Finset.notMem_empty _)

theorem save (h : VoterOK cast n x) (hgrow : forall {v t c}, cast v t c -> cast' v t c)
    (hown : forall {t c}, cast' n t c <-> cast n t c ∨ x.staged t c) :
    VoterOK cast' n x.save where
  le := by
    rintro t c (hcast | hfalse)
    · exact h.le (hown.mp hcast)
    · exact hfalse.elim
  now := by
    rintro c (hcast | hfalse)
    · exact h.now (hown.mp hcast)
    · exact hfalse.elim
  unique := by
    rintro t c c' (hcast | hfalse) (hcast' | hfalse')
    · exact h.unique (hown.mp hcast) (hown.mp hcast')
    · exact hfalse'.elim
    · exact hfalse.elim
    · exact hfalse.elim
  saved_le := fun hcast => h.le (hown.mp hcast)
  saved_now := fun hcast => h.now (hown.mp hcast)
  asked := fun hfalse => hfalse.elim
  tally := by
    intro v hv
    rcases h.tally hv with hcast | ⟨rfl, hstaged⟩
    · exact Or.inl (hgrow hcast)
    · exact Or.inl (hown.mpr (Or.inr hstaged))

theorem grow (h : VoterOK cast n x) (hgrow : forall {v t c}, cast v t c -> cast' v t c)
    (hown : forall {t c}, cast' n t c -> cast n t c) : VoterOK cast' n x where
  le := fun hc => h.le (hc.imp_left hown)
  now := fun hc => h.now (hc.imp_left hown)
  unique := fun hc hc' => h.unique (hc.imp_left hown) (hc'.imp_left hown)
  saved_le := fun hc => h.saved_le (hown hc)
  saved_now := fun hc => h.saved_now (hown hc)
  asked := fun hc hne => hgrow (h.asked hc hne)
  tally := fun hv => (h.tally hv).imp_left hgrow

end VoterOK

structure Inv (voters : Finset node) (s : State node) : Prop where
  voter : forall n, VoterOK s.cast n (s.voter n)
  /-- A vote for another node answers a request, which is sent after a save. -/
  asked : forall {v t c}, s.cast v t c -> v ≠ c -> s.cast c t c
  led : forall {n t}, s.led n t -> n ∈ voters ∧
    (voters = {n} ∨ exists Q, IsQuorum voters Q ∧ forall v, v ∈ Q -> s.cast v t n)

namespace Inv

theorem set [DecidableEq node] (h : Inv voters s) {x : Voter node}
    (hx : VoterOK s.cast n x) : Inv voters (s.set n x) := by
  refine ⟨fun m => ?_, h.asked, h.led⟩
  by_cases hm : m = n
  · subst hm
    rw [State.set_voter]
    exact hx
  · simp only [State.set, Function.update_of_ne hm]
    exact h.voter m

theorem quorum (h : Inv voters s) (hQ : IsQuorum voters (s.voter n).tally) :
    voters = {n} ∨
      exists Q, IsQuorum voters Q ∧ forall v, v ∈ Q -> s.cast v (s.voter n).term n := by
  by_cases hall : forall v, v ∈ (s.voter n).tally -> s.cast v (s.voter n).term n
  · exact Or.inr ⟨_, hQ, hall⟩
  · left
    rcases not_forall.mp hall with ⟨v, hv⟩
    rcases Classical.not_imp.mp hv with ⟨hmem, hnot⟩
    rcases (h.voter n).tally hmem with hcast | ⟨rfl, _⟩
    · exact absurd hcast hnot
    · have honly : (s.voter v).tally = {v} := by
        refine Finset.eq_singleton_iff_unique_mem.mpr ⟨hmem, fun u hu => ?_⟩
        by_contra hne
        rcases (h.voter v).tally hu with hcast | ⟨heq, _⟩
        · exact hnot (h.asked hcast hne)
        · exact hne heq
      rw [honly] at hQ
      have hcard := hQ.right
      rw [Finset.card_singleton] at hcard
      exact (Finset.eq_of_subset_of_card_le hQ.left (by
        rw [Finset.card_singleton]
        lia)).symm

theorem step [DecidableEq node] (h : Inv voters s) (hstep : Step voters n s s') :
    Inv voters s' := by
  have hn := h.voter n
  cases hstep with
  | adopt ht => exact h.set (hn.adopt ht)
  | campaign => exact h.set hn.campaign
  | grant hcast hvote => exact h.set (hn.pledge hvote fun _ => hcast)
  | count hcast => exact h.set (hn.count hcast)
  | crash => exact h.set hn.crash
  | lead hmem hQ =>
      refine ⟨h.voter, h.asked, ?_⟩
      rintro m t (hold | ⟨rfl, rfl⟩)
      · exact h.led hold
      · exact ⟨hmem, h.quorum hQ⟩
  | save =>
      refine ⟨fun m => ?_, ?_, ?_⟩
      · by_cases hm : m = n
        · subst hm
          simp only [State.save, State.set_voter]
          refine hn.save Or.inl ?_
          intro t c
          exact ⟨fun hc => hc.imp_right And.right, fun hc => hc.imp_right fun hs => ⟨rfl, hs⟩⟩
        · simp only [State.save, State.set, Function.update_of_ne hm]
          refine (h.voter m).grow Or.inl ?_
          intro t c hc
          exact hc.resolve_right fun hnew => hm hnew.left
      · rintro v t c (hcast | ⟨rfl, hstaged⟩) hne
        · exact Or.inl (h.asked hcast hne)
        · exact Or.inl (hn.asked hstaged hne)
      · intro m t hled
        rcases h.led hled with ⟨hmem, halone | ⟨Q, hQ, hcast⟩⟩
        · exact ⟨hmem, Or.inl halone⟩
        · exact ⟨hmem, Or.inr ⟨Q, hQ, fun v hv => Or.inl (hcast v hv)⟩⟩

theorem steps [DecidableEq node] (h : Inv voters s) (hsteps : Steps voters n s s') :
    Inv voters s' := by
  induction hsteps with
  | refl => exact h
  | tail _ hlast ih => exact ih.step hlast

theorem cast_unique (h : Inv voters s) {v c c' : node} {t : Nat}
    (hc : s.cast v t c) (hc' : s.cast v t c') : c = c' :=
  (h.voter v).unique (Or.inl hc) (Or.inl hc')

/-- A term has one leader. -/
theorem led_unique [DecidableEq node] (h : Inv voters s) {t : Nat}
    (hn : s.led n t) (hm : s.led m t) : n = m := by
  rcases h.led hn with ⟨hmem, halone | ⟨Q, hQ, hcast⟩⟩
  · have hmem' := (h.led hm).left
    rw [halone] at hmem'
    exact (Finset.mem_singleton.mp hmem').symm
  · rcases h.led hm with ⟨_, halone' | ⟨Q', hQ', hcast'⟩⟩
    · rw [halone'] at hmem
      exact Finset.mem_singleton.mp hmem
    · rcases hQ.meet hQ' with ⟨v, hv, hv'⟩
      exact h.cast_unique (hcast v hv) (hcast' v hv')

end Inv

def State.init : State node where
  voter := fun _ =>
    { term := 0
      vote := none
      tally := ∅
      savedTerm := 0
      savedVote := none
      staged := fun _ _ => False }
  cast := fun _ _ _ => False
  led := fun _ _ => False

theorem Inv.init : Inv voters (State.init : State node) := by
  refine ⟨fun n => ?_, fun hfalse => hfalse.elim, fun hfalse => hfalse.elim⟩
  refine ⟨?_, ?_, ?_, fun h => h.elim, fun h => h.elim, fun h => h.elim, ?_⟩
  · rintro t c (hfalse | hfalse)
    · exact hfalse.elim
    · exact hfalse.elim
  · rintro c (hfalse | hfalse)
    · exact hfalse.elim
    · exact hfalse.elim
  · rintro t c c' (hfalse | hfalse)
    · exact hfalse.elim
    · exact hfalse.elim
  · intro v hv
    exact absurd hv (Finset.notMem_empty v)

end

end Election
end Lib
end Basalt
