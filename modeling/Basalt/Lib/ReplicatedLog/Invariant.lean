import Basalt.Lib.ReplicatedLog.Protocol

/-!
# Invariants of the replicated log: votes and logs

The invariant is built in layers.  Votes are unique and bounded by the voter's
term; from them every term has one leader.  Logs then fit the log of the leader
of each of their terms, which is log matching in the form the later arguments
use it.
-/

namespace Basalt
namespace Lib
namespace ReplicatedLog

variable {node entry : Type _}

/-!
## Growth of facts
-/

/-- Facts are kept from one state to another, and terms do not go down. -/
structure Grows (s s' : State node entry) : Prop where
  term : forall n, s.term n ≤ s'.term n
  cand : forall {t c C}, s.cand t c = some C -> s'.cand t c = some C
  votes : forall {v t c}, s.votes v t c -> s'.votes v t c
  lead : forall {t x}, s.lead t = some x -> s'.lead t = some x
  termLog : forall {t x}, s.lead t = some x -> s.termLog t <+: s'.termLog t
  acks : forall {v t j}, s.acks v t j -> s'.acks v t j
  chosen : forall {t i}, s.chosen t i -> s'.chosen t i

theorem Grows.refl (s : State node entry) : Grows s s where
  term := fun _ => Nat.le_refl _
  cand := id
  votes := id
  lead := id
  termLog := fun _ => List.prefix_refl _
  acks := id
  chosen := id

theorem Grows.trans {s s' s'' : State node entry}
    (h : Grows s s') (h' : Grows s' s'') : Grows s s'' where
  term := fun n => Nat.le_trans (h.term n) (h'.term n)
  cand := fun hc => h'.cand (h.cand hc)
  votes := fun hv => h'.votes (h.votes hv)
  lead := fun hl => h'.lead (h.lead hl)
  termLog := fun hl => (h.termLog hl).trans (h'.termLog (h.lead hl))
  acks := fun ha => h'.acks (h.acks ha)
  chosen := fun hc => h'.chosen (h.chosen hc)

/-- A log fits the elections of a state: up to each of its entries it is a
prefix of the log of the leader of the entry's term. -/
def Fits (termOf : entry -> Nat) (s : State node entry) (L : List entry) :
    Prop :=
  forall k e, L[k]? = some e ->
    (exists x, s.lead (termOf e) = some x) ∧
      L.take (k + 1) <+: s.termLog (termOf e)

theorem Fits.grows {termOf : entry -> Nat} {s s' : State node entry}
    {L : List entry} (h : Fits termOf s L) (hg : Grows s s') :
    Fits termOf s' L := by
  intro k e hk
  rcases h k e hk with ⟨⟨x, hx⟩, hpre⟩
  exact ⟨⟨x, hg.lead hx⟩, hpre.trans (hg.termLog hx)⟩

theorem Fits.of_pre {termOf : entry -> Nat} {s : State node entry}
    {L K : List entry} (h : Fits termOf s K) (hpre : L <+: K) :
    Fits termOf s L := by
  intro k e hk
  have hlt : k < L.length := (List.getElem?_eq_some_iff.mp hk).choose
  rcases hpre with ⟨rest, rfl⟩
  rcases h k e (by rw [List.getElem?_append_left hlt]; exact hk) with
    ⟨hlead, hfit⟩
  refine ⟨hlead, ?_⟩
  rwa [List.take_append_of_le_length (by lia)] at hfit

/-!
## Votes
-/

structure VoteInv (s : State node entry) : Prop where
  vote_le : forall {v t c}, s.votes v t c -> t ≤ s.term v
  vote_unique : forall {v t c c'}, s.votes v t c -> s.votes v t c' -> c = c'
  vote_cand : forall {v t c}, s.votes v t c -> exists C, s.cand t c = some C
  cand_le : forall {t c C}, s.cand t c = some C -> t ≤ s.term c
  cand_pos : forall {t c C}, s.cand t c = some C -> 1 ≤ t

theorem VoteInv.cand_fresh {s : State node entry} (h : VoteInv s) (n : node) :
    s.cand (s.term n + 1) n = none := by
  cases hc : s.cand (s.term n + 1) n with
  | none => rfl
  | some C =>
      have hle := h.cand_le hc
      lia

section Votes

variable [DecidableEq node] {voters : Finset node} {termOf : entry -> Nat}

theorem le_update_of_le {f : node -> Nat} {n : node} {t : Nat}
    (h : f n ≤ t) (v : node) : f v ≤ Function.update f n t v := by
  by_cases hv : v = n
  · rw [hv, Function.update_self]
    exact h
  · rw [Function.update_of_ne hv]

theorem cand_update_eq_some {s : State node entry} {n c : node} {t t' : Nat}
    {L C : List entry}
    (h : Function.update s.cand t
      (Function.update (s.cand t) n (some L)) t' c = some C) :
    (t' = t ∧ c = n ∧ C = L) ∨ ((t' ≠ t ∨ c ≠ n) ∧ s.cand t' c = some C) := by
  by_cases ht : t' = t
  · subst ht
    rw [Function.update_self] at h
    by_cases hc : c = n
    · subst hc
      rw [Function.update_self] at h
      exact Or.inl ⟨rfl, rfl, (Option.some.inj h).symm⟩
    · rw [Function.update_of_ne hc] at h
      exact Or.inr ⟨Or.inr hc, h⟩
  · rw [Function.update_of_ne ht] at h
    exact Or.inr ⟨Or.inl ht, h⟩

theorem cand_update_self {s : State node entry} {n : node} {t : Nat}
    {L : List entry} :
    Function.update s.cand t
      (Function.update (s.cand t) n (some L)) t n = some L := by
  rw [Function.update_self, Function.update_self]

theorem cand_update_keep {s : State node entry} {n c : node} {t t' : Nat}
    {L C : List entry} (hfresh : s.cand t n = none)
    (h : s.cand t' c = some C) :
    Function.update s.cand t
      (Function.update (s.cand t) n (some L)) t' c = some C := by
  by_cases ht : t' = t
  · subst ht
    rw [Function.update_self]
    by_cases hc : c = n
    · subst hc
      rw [hfresh] at h
      cases h
    · rw [Function.update_of_ne hc]
      exact h
  · rw [Function.update_of_ne ht]
    exact h

theorem VoteInv.step {s s' : State node entry} {n : node}
    (h : VoteInv s) (hstep : Step voters termOf n s s') : VoteInv s' := by
  cases hstep with
  | adopt hlt =>
      have hmono := le_update_of_le (Nat.le_of_lt hlt)
      exact
        { vote_le := fun hv => Nat.le_trans (h.vote_le hv) (hmono _)
          vote_unique := h.vote_unique
          vote_cand := h.vote_cand
          cand_le := fun hc => Nat.le_trans (h.cand_le hc) (hmono _)
          cand_pos := h.cand_pos }
  | campaign =>
      have hmono := le_update_of_le (Nat.le_succ (s.term n))
      have hself : Function.update s.term n (s.term n + 1) n = s.term n + 1 :=
        Function.update_self ..
      constructor
      · intro v t c hv
        rcases hv with hv | ⟨rfl, rfl, rfl⟩
        · exact Nat.le_trans (h.vote_le hv) (hmono v)
        · exact Nat.le_of_eq hself.symm
      · intro v t c c' hv hv'
        rcases hv with hv | ⟨rfl, rfl, rfl⟩
        · rcases hv' with hv' | ⟨rfl, rfl, rfl⟩
          · exact h.vote_unique hv hv'
          · have hle := h.vote_le hv
            lia
        · rcases hv' with hv' | ⟨_, _, rfl⟩
          · have hle := h.vote_le hv'
            lia
          · rfl
      · intro v t c hv
        rcases hv with hv | ⟨rfl, rfl, rfl⟩
        · rcases h.vote_cand hv with ⟨C, hC⟩
          exact ⟨C, cand_update_keep (h.cand_fresh n) hC⟩
        · exact ⟨s.log c, cand_update_self⟩
      · intro t c C hc
        rcases cand_update_eq_some hc with ⟨rfl, rfl, _⟩ | ⟨_, hc⟩
        · exact Nat.le_of_eq hself.symm
        · exact Nat.le_trans (h.cand_le hc) (hmono c)
      · intro t c C hc
        rcases cand_update_eq_some hc with ⟨rfl, rfl, _⟩ | ⟨_, hc⟩
        · exact Nat.succ_pos _
        · exact h.cand_pos hc
  | grant hcand _ huniq =>
      constructor
      · intro v t c' hv
        rcases hv with hv | ⟨rfl, rfl, rfl⟩
        · exact h.vote_le hv
        · exact Nat.le_refl _
      · intro v t c' c'' hv hv'
        rcases hv with hv | ⟨rfl, rfl, rfl⟩
        · rcases hv' with hv' | ⟨rfl, rfl, rfl⟩
          · exact h.vote_unique hv hv'
          · exact huniq _ hv
        · rcases hv' with hv' | ⟨_, _, rfl⟩
          · exact (huniq _ hv').symm
          · rfl
      · intro v t c' hv
        rcases hv with hv | ⟨rfl, rfl, rfl⟩
        · exact h.vote_cand hv
        · exact ⟨_, hcand⟩
      · exact h.cand_le
      · exact h.cand_pos
  | elect | extend | accept | selfAck | choose | learn =>
      exact
        { vote_le := h.vote_le
          vote_unique := h.vote_unique
          vote_cand := h.vote_cand
          cand_le := h.cand_le
          cand_pos := h.cand_pos }

end Votes

/-!
## Logs
-/

structure LogInv (voters : Finset node) (termOf : entry -> Nat)
    (s : State node entry) : Prop where
  cand_lt : forall {t c C}, s.cand t c = some C ->
    forall e, e ∈ C -> termOf e < t
  cand_fits : forall {t c C}, s.cand t c = some C -> Fits termOf s C
  cand_log : forall {n C}, s.cand (s.term n) n = some C ->
    s.lead (s.term n) = none -> s.log n = C
  lead_cand : forall {t l Q}, s.lead t = some (l, Q) ->
    exists C, s.cand t l = some C ∧ C <+: s.termLog t ∧
      forall e, e ∈ (s.termLog t).drop C.length -> termOf e = t
  lead_quorum : forall {t l Q}, s.lead t = some (l, Q) ->
    IsQuorum voters Q ∧ forall v, v ∈ Q -> s.votes v t l
  lead_log : forall {n Q}, s.lead (s.term n) = some (n, Q) ->
    s.log n = s.termLog (s.term n)
  log_le : forall {n e}, e ∈ s.log n -> termOf e ≤ s.term n
  log_fits : forall n, Fits termOf s (s.log n)

section Logs

variable {voters : Finset node} {termOf : entry -> Nat}
variable {s : State node entry}

theorem LogInv.mem_termLog_le (h : LogInv voters termOf s) {t : Nat}
    {x : node × Finset node} (hlead : s.lead t = some x)
    {e : entry} (he : e ∈ s.termLog t) : termOf e ≤ t := by
  rcases x with ⟨l, Q⟩
  rcases h.lead_cand hlead with ⟨C, hC, ⟨rest, hpre⟩, hdrop⟩
  rw [← hpre] at he hdrop
  rw [List.drop_left] at hdrop
  rcases List.mem_append.mp he with he | he
  · exact Nat.le_of_lt (h.cand_lt hC e he)
  · exact Nat.le_of_eq (hdrop e he)

theorem LogInv.termLog_fits (h : LogInv voters termOf s) {t : Nat}
    {x : node × Finset node} (hlead : s.lead t = some x) :
    Fits termOf s (s.termLog t) := by
  rcases x with ⟨l, Q⟩
  rcases h.lead_cand hlead with ⟨C, hC, ⟨rest, hpre⟩, hdrop⟩
  intro k e hk
  rw [← hpre] at hk hdrop
  rw [List.drop_left] at hdrop
  by_cases hlt : k < C.length
  · rw [List.getElem?_append_left hlt] at hk
    rcases h.cand_fits hC k e hk with ⟨hx, hfit⟩
    refine ⟨hx, ?_⟩
    rw [← hpre, List.take_append_of_le_length (by lia)]
    exact hfit
  · rw [List.getElem?_append_right (by lia)] at hk
    have hterm : termOf e = t := hdrop e (List.mem_of_getElem? hk)
    rw [hterm]
    exact ⟨⟨_, hlead⟩, List.take_prefix _ _⟩

/-- The leader of a term is unique: it is read off the vote of a node that two
electing quorums share. -/
theorem LogInv.lead_eq_of_votes (h : LogInv voters termOf s) (hv : VoteInv s)
    [DecidableEq node] {t : Nat} {l n : node} {Q R : Finset node}
    (hlead : s.lead t = some (l, Q)) (hR : IsQuorum voters R)
    (hvotes : forall v, v ∈ R -> s.votes v t n) : l = n := by
  rcases h.lead_quorum hlead with ⟨hQ, hQvotes⟩
  rcases hQ.meet hR with ⟨v, hvQ, hvR⟩
  exact hv.vote_unique (hQvotes v hvQ) (hvotes v hvR)

theorem Fits.take_eq {L : List entry} (hfit : Fits termOf s L)
    {k : Nat} {e : entry} (hk : L[k]? = some e) :
    L.take (k + 1) = (s.termLog (termOf e)).take (k + 1) := by
  have hlt : k < L.length := (List.getElem?_eq_some_iff.mp hk).choose
  rcases (hfit k e hk).right with ⟨rest, hrest⟩
  rw [← hrest, List.take_append_of_le_length (by simp; lia), List.take_take]
  simp

/-- Log matching: two logs with an entry of the same term at one index agree
up to that index. -/
theorem Fits.matching {L K : List entry} (hL : Fits termOf s L)
    (hK : Fits termOf s K) {k : Nat} {e d : entry}
    (hLk : L[k]? = some e) (hKk : K[k]? = some d)
    (hterm : termOf e = termOf d) :
    L.take (k + 1) = K.take (k + 1) := by
  rw [hL.take_eq hLk, hK.take_eq hKk, hterm]

theorem Fits.le_of_mem_take (h : LogInv voters termOf s) {L : List entry}
    (hfit : Fits termOf s L) {k : Nat} {e d : entry} (hk : L[k]? = some e)
    (hd : d ∈ L.take (k + 1)) : termOf d ≤ termOf e := by
  rcases (hfit k e hk) with ⟨⟨x, hx⟩, hpre⟩
  exact h.mem_termLog_le hx (hpre.subset hd)

end Logs

/-!
## Preservation
-/

section Preservation

variable [DecidableEq node] {voters : Finset node} {termOf : entry -> Nat}
variable {s s' : State node entry} {n : node}

theorem Grows.of_step (hv : VoteInv s) (hl : LogInv voters termOf s)
    (hstep : Step voters termOf n s s') : Grows s s' := by
  cases hstep with
  | adopt hlt =>
      exact { Grows.refl s with term := le_update_of_le (Nat.le_of_lt hlt) }
  | campaign =>
      exact
        { Grows.refl s with
          term := le_update_of_le (Nat.le_succ (s.term n))
          cand := fun hc => cand_update_keep (hv.cand_fresh n) hc
          votes := Or.inl }
  | grant =>
      exact { Grows.refl s with votes := Or.inl }
  | elect _ hnone =>
      have hne : forall {t x}, s.lead t = some x -> t ≠ s.term n := by
        intro t x hx ht
        rw [ht, hnone] at hx
        cases hx
      constructor
      · exact fun _ => Nat.le_refl _
      · exact id
      · exact id
      · intro t x hx
        simp only [Function.update_of_ne (hne hx)]
        exact hx
      · intro t x hx
        simp only [Function.update_of_ne (hne hx)]
        exact List.prefix_refl _
      · exact id
      · exact id
  | extend hlead _ =>
      constructor
      · exact fun _ => Nat.le_refl _
      · exact id
      · exact id
      · exact id
      · intro t x _
        by_cases ht : t = s.term n
        · simp only [ht, Function.update_self, ← hl.lead_log hlead]
          exact List.prefix_append _ _
        · simp only [Function.update_of_ne ht]
          exact List.prefix_refl _
      · exact id
      · exact id
  | accept =>
      exact { Grows.refl s with acks := Or.inl }
  | selfAck =>
      exact { Grows.refl s with acks := Or.inl }
  | choose =>
      exact { Grows.refl s with chosen := Or.inl }
  | learn =>
      exact { Grows.refl s with }

theorem LogInv.adopt (hv : VoteInv s) (hl : LogInv voters termOf s) {t : Nat}
    (hlt : s.term n < t) :
    LogInv voters termOf { s with term := Function.update s.term n t } := by
  have hmono := le_update_of_le (Nat.le_of_lt hlt)
  constructor
  · exact hl.cand_lt
  · exact hl.cand_fits
  · intro v C hc hnone
    by_cases hvn : v = n
    · subst hvn
      simp only [Function.update_self] at hc
      have hle := hv.cand_le hc
      lia
    · simp only [Function.update_of_ne hvn] at hc hnone
      exact hl.cand_log hc hnone
  · exact hl.lead_cand
  · exact hl.lead_quorum
  · intro v Q hlead
    by_cases hvn : v = n
    · subst hvn
      simp only [Function.update_self] at hlead
      rcases hl.lead_cand hlead with ⟨C, hC, _⟩
      have hle := hv.cand_le hC
      lia
    · simp only [Function.update_of_ne hvn] at hlead ⊢
      exact hl.lead_log hlead
  · intro v e he
    exact Nat.le_trans (hl.log_le he) (hmono v)
  · exact hl.log_fits

theorem LogInv.campaign (hv : VoteInv s) (hl : LogInv voters termOf s) :
    LogInv voters termOf
      { s with
        term := Function.update s.term n (s.term n + 1)
        cand := Function.update s.cand (s.term n + 1)
          (Function.update (s.cand (s.term n + 1)) n (some (s.log n)))
        votes := fun v t c =>
          s.votes v t c ∨ (v = n ∧ t = s.term n + 1 ∧ c = n) } := by
  have hmono := le_update_of_le (Nat.le_succ (s.term n))
  constructor
  · intro t c C hc e he
    rcases cand_update_eq_some hc with ⟨rfl, rfl, rfl⟩ | ⟨_, hc⟩
    · exact Nat.lt_succ_of_le (hl.log_le he)
    · exact hl.cand_lt hc e he
  · intro t c C hc
    rcases cand_update_eq_some hc with ⟨rfl, rfl, rfl⟩ | ⟨_, hc⟩
    · exact hl.log_fits c
    · exact hl.cand_fits hc
  · intro v C hc hnone
    by_cases hvn : v = n
    · subst hvn
      simp only [Function.update_self] at hc
      exact Option.some.inj hc
    · simp only [Function.update_of_ne hvn] at hc hnone
      rcases cand_update_eq_some hc with ⟨_, hvn', _⟩ | ⟨_, hc⟩
      · exact absurd hvn' hvn
      · exact hl.cand_log hc hnone
  · intro t l Q hlead
    rcases hl.lead_cand hlead with ⟨C, hC, hpre, hdrop⟩
    exact ⟨C, cand_update_keep (hv.cand_fresh n) hC, hpre, hdrop⟩
  · intro t l Q hlead
    rcases hl.lead_quorum hlead with ⟨hQ, hvotes⟩
    exact ⟨hQ, fun v hvQ => Or.inl (hvotes v hvQ)⟩
  · intro v Q hlead
    by_cases hvn : v = n
    · subst hvn
      simp only [Function.update_self] at hlead
      rcases hl.lead_cand hlead with ⟨C, hC, _⟩
      rw [hv.cand_fresh v] at hC
      cases hC
    · simp only [Function.update_of_ne hvn] at hlead ⊢
      exact hl.lead_log hlead
  · intro v e he
    exact Nat.le_trans (hl.log_le he) (hmono v)
  · exact hl.log_fits

omit [DecidableEq node] in
theorem LogInv.elect (hl : LogInv voters termOf s) {Q : Finset node}
    {C : List entry} (hcand : s.cand (s.term n) n = some C)
    (hnone : s.lead (s.term n) = none) (hQ : IsQuorum voters Q)
    (hvotes : forall v, v ∈ Q -> s.votes v (s.term n) n)
    (hg : Grows s
      { s with
        lead := Function.update s.lead (s.term n) (some (n, Q))
        termLog := Function.update s.termLog (s.term n) (s.log n) }) :
    LogInv voters termOf
      { s with
        lead := Function.update s.lead (s.term n) (some (n, Q))
        termLog := Function.update s.termLog (s.term n) (s.log n) } := by
  have hlog : s.log n = C := hl.cand_log hcand hnone
  have hold : forall {t x},
      Function.update s.lead (s.term n) (some (n, Q)) t = some x ->
      (t = s.term n ∧ x = (n, Q)) ∨ (t ≠ s.term n ∧ s.lead t = some x) := by
    intro t x hx
    by_cases ht : t = s.term n
    · rw [ht, Function.update_self] at hx
      exact Or.inl ⟨ht, (Option.some.inj hx).symm⟩
    · rw [Function.update_of_ne ht] at hx
      exact Or.inr ⟨ht, hx⟩
  constructor
  · exact hl.cand_lt
  · intro t c C hc
    exact (hl.cand_fits hc).grows hg
  · intro v C' hc hnone'
    apply hl.cand_log hc
    by_cases ht : s.term v = s.term n
    · rw [ht]
      exact hnone
    · simpa only [Function.update_of_ne ht] using hnone'
  · intro t l R hlead
    rcases hold hlead with ⟨rfl, hx⟩ | ⟨ht, hx⟩
    · cases hx
      refine ⟨C, hcand, ?_, ?_⟩
      · simp only [Function.update_self]
        rw [hlog]
      · simp only [Function.update_self]
        rw [hlog]
        simp
    · simp only [Function.update_of_ne ht]
      exact hl.lead_cand hx
  · intro t l R hlead
    rcases hold hlead with ⟨rfl, hx⟩ | ⟨_, hx⟩
    · cases hx
      exact ⟨hQ, hvotes⟩
    · exact hl.lead_quorum hx
  · intro v R hlead
    rcases hold hlead with ⟨ht, hx⟩ | ⟨ht, hx⟩
    · cases hx
      simp only [Function.update_self]
    · simp only [Function.update_of_ne ht]
      exact hl.lead_log hx
  · exact hl.log_le
  · intro v
    exact (hl.log_fits v).grows hg

theorem LogInv.extend (hl : LogInv voters termOf s) {Q : Finset node}
    {es : List entry} (hlead : s.lead (s.term n) = some (n, Q))
    (hes : forall e, e ∈ es -> termOf e = s.term n)
    (hg : Grows s
      { s with
        log := Function.update s.log n (s.log n ++ es)
        termLog := Function.update s.termLog (s.term n) (s.log n ++ es) }) :
    LogInv voters termOf
      { s with
        log := Function.update s.log n (s.log n ++ es)
        termLog := Function.update s.termLog (s.term n) (s.log n ++ es) } := by
  constructor
  · exact hl.cand_lt
  · intro t c C hc
    exact (hl.cand_fits hc).grows hg
  · intro v C hc hnone
    by_cases hvn : v = n
    · subst hvn
      rw [hlead] at hnone
      cases hnone
    · simp only [Function.update_of_ne hvn]
      exact hl.cand_log hc hnone
  · intro t l R hx
    rcases hl.lead_cand hx with ⟨C, hC, hpre, hdrop⟩
    by_cases ht : t = s.term n
    · subst ht
      rw [← hl.lead_log hlead] at hpre hdrop
      refine ⟨C, hC, ?_, ?_⟩
      · simp only [Function.update_self]
        exact hpre.trans (List.prefix_append _ _)
      · simp only [Function.update_self]
        intro e he
        rw [List.drop_append_of_le_length hpre.length_le] at he
        rcases List.mem_append.mp he with he | he
        · exact hdrop e he
        · exact hes e he
    · simp only [Function.update_of_ne ht]
      exact ⟨C, hC, hpre, hdrop⟩
  · exact hl.lead_quorum
  · intro v R hx
    by_cases ht : s.term v = s.term n
    · have hvn : v = n := by
        rw [ht, hlead] at hx
        cases hx
        rfl
      simp only [hvn, Function.update_self]
    · have hvn : v ≠ n := fun hvn => ht (by rw [hvn])
      simp only [Function.update_of_ne hvn, Function.update_of_ne ht]
      exact hl.lead_log hx
  · intro v e he
    by_cases hvn : v = n
    · subst hvn
      simp only [Function.update_self] at he
      rcases List.mem_append.mp he with he | he
      · exact hl.log_le he
      · exact Nat.le_of_eq (hes e he)
    · simp only [Function.update_of_ne hvn] at he
      exact hl.log_le he
  · intro v
    by_cases hvn : v = n
    · subst hvn
      simp only [Function.update_self]
      intro k e hk
      by_cases hlt : k < (s.log v).length
      · rw [List.getElem?_append_left hlt] at hk
        rw [List.take_append_of_le_length (by lia)]
        exact ((hl.log_fits v).grows hg) k e hk
      · rw [List.getElem?_append_right (by lia)] at hk
        rw [hes e (List.mem_of_getElem? hk)]
        refine ⟨⟨_, hlead⟩, ?_⟩
        simp only [Function.update_self]
        exact List.take_prefix _ _
    · simp only [Function.update_of_ne hvn]
      exact (hl.log_fits v).grows hg

theorem LogInv.accept (hl : LogInv voters termOf s) {l : node}
    {Q : Finset node} {j : Nat} {L : List entry}
    {acks : node -> Nat -> Nat -> Prop}
    (hlead : s.lead (s.term n) = some (l, Q)) (hne : l ≠ n)
    (hL : L = s.log n ∨ L = (s.termLog (s.term n)).take j) :
    LogInv voters termOf
      { s with log := Function.update s.log n L, acks := acks } := by
  constructor
  · exact hl.cand_lt
  · exact hl.cand_fits
  · intro v C hc hnone
    by_cases hvn : v = n
    · subst hvn
      rw [hlead] at hnone
      cases hnone
    · simp only [Function.update_of_ne hvn]
      exact hl.cand_log hc hnone
  · exact hl.lead_cand
  · exact hl.lead_quorum
  · intro v R hx
    by_cases hvn : v = n
    · subst hvn
      rw [hlead] at hx
      cases hx
      exact absurd rfl hne
    · simp only [Function.update_of_ne hvn]
      exact hl.lead_log hx
  · intro v e he
    by_cases hvn : v = n
    · subst hvn
      simp only [Function.update_self] at he
      rcases hL with rfl | rfl
      · exact hl.log_le he
      · exact hl.mem_termLog_le hlead (List.mem_of_mem_take he)
    · simp only [Function.update_of_ne hvn] at he
      exact hl.log_le he
  · intro v
    by_cases hvn : v = n
    · subst hvn
      simp only [Function.update_self]
      rcases hL with rfl | rfl
      · exact hl.log_fits v
      · exact (hl.termLog_fits hlead).of_pre (List.take_prefix _ _)
    · simp only [Function.update_of_ne hvn]
      exact hl.log_fits v

theorem LogInv.step (hv : VoteInv s) (hl : LogInv voters termOf s)
    (hstep : Step voters termOf n s s') : LogInv voters termOf s' := by
  have hg := Grows.of_step hv hl hstep
  cases hstep with
  | adopt hlt =>
      exact hl.adopt hv hlt
  | campaign =>
      exact hl.campaign hv
  | grant =>
      exact
        { hl with
          lead_quorum := fun hlead =>
            ⟨(hl.lead_quorum hlead).left,
              fun v hvQ => Or.inl ((hl.lead_quorum hlead).right v hvQ)⟩ }
  | elect hcand hnone hQ hvotes =>
      exact hl.elect hcand hnone hQ hvotes hg
  | extend hlead hes =>
      exact hl.extend hlead hes hg
  | accept hlead hne _ hL =>
      exact hl.accept hlead hne (hL.imp And.right And.right)
  | selfAck | choose | learn =>
      exact { hl with }

end Preservation

end ReplicatedLog
end Lib
end Basalt
