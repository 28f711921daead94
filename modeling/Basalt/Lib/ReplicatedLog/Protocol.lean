import Mathlib.Data.List.Basic
import Mathlib.Logic.Function.Basic
import Mathlib.Logic.Relation
import Basalt.Lib.Quorum

/-!
# A term-based replicated log

An abstract protocol for agreeing on a log with one elected leader per term.
Its state keeps, next to what each node holds now, the facts that were ever
established: candidacies, granted votes, elections, the log of each term's
leader, acknowledgements and chosen positions.  Facts are never taken back, so
a message that is lost, duplicated, delayed or reordered is a fact that some
node reads at a later time, or not at all.

The protocol is generic in the nodes and in the entries; an entry only has to
carry the term in which it was appended.
-/

namespace Basalt
namespace Lib
namespace ReplicatedLog

structure State (node entry : Type _) where
  term : node -> Nat
  log : node -> List entry
  commit : node -> Nat
  /-- The log a candidate held when it opened its campaign for a term. -/
  cand : Nat -> node -> Option (List entry)
  /-- The votes granted: voter, term, candidate. -/
  votes : node -> Nat -> node -> Prop
  /-- The leader of a term with the quorum that elected it. -/
  lead : Nat -> Option (node × Finset node)
  /-- The log of the leader of a term, as far as it was written in that term. -/
  termLog : Nat -> List entry
  /-- The acknowledgements: node, term, number of entries held. -/
  acks : node -> Nat -> Nat -> Prop
  /-- The positions a leader has committed: term, index. -/
  chosen : Nat -> Nat -> Prop

/-!
## Positions of a log

Indexes count from one; the empty prefix has index zero and term zero.
-/

section Positions

variable {entry : Type _} (termOf : entry -> Nat)

def termAt (L : List entry) : Nat -> Nat
  | 0 => 0
  | i + 1 => (L[i]?.map termOf).getD 0

def lastTerm (L : List entry) : Nat :=
  termAt termOf L L.length

/-- The comparison of the voting rule: a candidate's log against the voter's. -/
def UpToDate (C L : List entry) : Prop :=
  lastTerm termOf L < lastTerm termOf C ∨
    (lastTerm termOf C = lastTerm termOf L ∧ L.length ≤ C.length)

theorem termAt_succ_of_getElem? {L : List entry} {i : Nat} {e : entry}
    (h : L[i]? = some e) : termAt termOf L (i + 1) = termOf e := by
  simp [termAt, h]

theorem getElem?_of_termAt {L : List entry} {i t : Nat}
    (h : termAt termOf L i = t) (ht : t ≠ 0) :
    exists e, L[i - 1]? = some e ∧ termOf e = t ∧ 1 ≤ i ∧ i ≤ L.length := by
  cases i with
  | zero =>
      exact absurd h.symm ht
  | succ i =>
      cases hget : L[i]? with
      | none =>
          simp [termAt, hget] at h
          exact absurd h.symm ht
      | some e =>
          have hlt : i < L.length := (List.getElem?_eq_some_iff.mp hget).choose
          refine ⟨e, ?_, ?_, by lia, by lia⟩
          · simpa using hget
          · simpa [termAt, hget] using h

theorem termAt_of_pre {L K : List entry} (h : L <+: K) {i : Nat}
    (hi : i ≤ L.length) : termAt termOf K i = termAt termOf L i := by
  cases i with
  | zero => rfl
  | succ i =>
      rcases h with ⟨rest, rfl⟩
      simp [termAt, List.getElem?_append_left (by lia : i < L.length)]

end Positions

/-!
## Transitions

Each transition is taken by one node.  It changes the local state of that node
only, and adds facts about it.
-/

section Transitions

variable {node entry : Type _} [DecidableEq node]
variable (voters : Finset node) (termOf : entry -> Nat)

inductive Step (n : node) : State node entry -> State node entry -> Prop where
  /-- A node learns of a higher term. -/
  | adopt {s : State node entry} {t : Nat} :
      s.term n < t ->
      Step n s { s with term := Function.update s.term n t }
  /-- A node opens a campaign for the next term and votes for itself. -/
  | campaign {s : State node entry} :
      Step n s
        { s with
          term := Function.update s.term n (s.term n + 1)
          cand := Function.update s.cand (s.term n + 1)
            (Function.update (s.cand (s.term n + 1)) n (some (s.log n)))
          votes := fun v t c =>
            s.votes v t c ∨ (v = n ∧ t = s.term n + 1 ∧ c = n) }
  /-- A node grants its vote of the current term. -/
  | grant {s : State node entry} {c : node} {C : List entry} :
      s.cand (s.term n) c = some C ->
      UpToDate termOf C (s.log n) ->
      (forall c', s.votes n (s.term n) c' -> c' = c) ->
      Step n s
        { s with
          votes := fun v t c' =>
            s.votes v t c' ∨ (v = n ∧ t = s.term n ∧ c' = c) }
  /-- A candidate counts the votes of a quorum. -/
  | elect {s : State node entry} {Q : Finset node} {C : List entry} :
      s.cand (s.term n) n = some C ->
      s.lead (s.term n) = none ->
      IsQuorum voters Q ->
      (forall v, v ∈ Q -> s.votes v (s.term n) n) ->
      Step n s
        { s with
          lead := Function.update s.lead (s.term n) (some (n, Q))
          termLog := Function.update s.termLog (s.term n) (s.log n) }
  /-- The leader appends entries of its term. -/
  | extend {s : State node entry} {Q : Finset node} {es : List entry} :
      s.lead (s.term n) = some (n, Q) ->
      (forall e, e ∈ es -> termOf e = s.term n) ->
      Step n s
        { s with
          log := Function.update s.log n (s.log n ++ es)
          termLog := Function.update s.termLog (s.term n) (s.log n ++ es) }
  /-- A node takes over a prefix of the current leader's log: it keeps its own
  log when the prefix is already there and replaces it otherwise. -/
  | accept {s : State node entry} {l : node} {Q : Finset node} {j : Nat}
      {L : List entry} :
      s.lead (s.term n) = some (l, Q) ->
      l ≠ n ->
      j ≤ (s.termLog (s.term n)).length ->
      ((s.termLog (s.term n)).take j <+: s.log n ∧ L = s.log n ∨
        ¬ (s.termLog (s.term n)).take j <+: s.log n ∧
          L = (s.termLog (s.term n)).take j) ->
      Step n s
        { s with
          log := Function.update s.log n L
          acks := fun v t i =>
            s.acks v t i ∨ (v = n ∧ t = s.term n ∧ i = j) }
  /-- The leader counts its own log. -/
  | selfAck {s : State node entry} {Q : Finset node} {j : Nat} :
      s.lead (s.term n) = some (n, Q) ->
      j ≤ (s.log n).length ->
      Step n s
        { s with
          acks := fun v t i =>
            s.acks v t i ∨ (v = n ∧ t = s.term n ∧ i = j) }
  /-- The leader commits an entry of its own term that a quorum holds. -/
  | choose {s : State node entry} {Q R : Finset node} {i : Nat} :
      s.lead (s.term n) = some (n, Q) ->
      termAt termOf (s.log n) i = s.term n ->
      IsQuorum voters R ->
      (forall v, v ∈ R -> exists j, i ≤ j ∧ s.acks v (s.term n) j) ->
      Step n s
        { s with
          commit := Function.update s.commit n (max (s.commit n) i)
          chosen := fun t k => s.chosen t k ∨ (t = s.term n ∧ k = i) }
  /-- A node learns that a prefix of its log is chosen. -/
  | learn {s : State node entry} {t i k : Nat} :
      s.chosen t k ->
      t ≤ s.term n ->
      i ≤ k ->
      i ≤ (s.log n).length ->
      (s.log n).take i <+: s.termLog t ->
      Step n s
        { s with commit := Function.update s.commit n (max (s.commit n) i) }

abbrev Steps (n : node) : State node entry -> State node entry -> Prop :=
  Relation.ReflTransGen (Step voters termOf n)

end Transitions

end ReplicatedLog
end Lib
end Basalt
