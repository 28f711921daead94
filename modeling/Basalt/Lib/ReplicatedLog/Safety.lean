import Basalt.Lib.ReplicatedLog.Invariant

/-!
# Leader completeness and agreement

An acknowledged prefix stays in a node's log unless a later leader was elected
without it, and a voter with the prefix only elects candidates that have it,
with the same exception.  A prefix that a quorum acknowledged admits no such
leader, by induction on the term, so every later leader holds it.  Agreement on
committed prefixes follows.
-/

namespace Basalt
namespace Lib
namespace ReplicatedLog

variable {node entry : Type _}

theorem take_eq_of_pre {L K : List entry} (h : L <+: K) {i : Nat}
    (hi : i ≤ L.length) : K.take i = L.take i := by
  rcases h with ⟨rest, rfl⟩
  exact List.take_append_of_le_length hi

/-- The leader of term `t` was elected with the log `C`. -/
def ElectedWith (s : State node entry) (t : Nat) (C : List entry) : Prop :=
  exists l Q, s.lead t = some (l, Q) ∧ s.cand t l = some C

/-- Some leader of a term in `(t, u)` was elected with a log that lacks `P`. -/
def LostBetween (s : State node entry) (P : List entry) (t u : Nat) : Prop :=
  exists w C, t < w ∧ w < u ∧ ElectedWith s w C ∧ ¬ P <+: C

/-- A vote that counted for an election, or may still count for one. -/
def LiveVote (s : State node entry) (v : node) (t : Nat) (c : node) : Prop :=
  s.lead t = none ∨ exists Q, s.lead t = some (c, Q) ∧ v ∈ Q

theorem ElectedWith.grows {s s' : State node entry} {t : Nat} {C : List entry}
    (h : ElectedWith s t C) (hg : Grows s s') : ElectedWith s' t C := by
  rcases h with ⟨l, Q, hlead, hcand⟩
  exact ⟨l, Q, hg.lead hlead, hg.cand hcand⟩

theorem LostBetween.grows {s s' : State node entry} {P : List entry}
    {t u u' : Nat} (h : LostBetween s P t u) (hg : Grows s s') (hu : u ≤ u') :
    LostBetween s' P t u' := by
  rcases h with ⟨w, C, htw, hwu, helect, hnot⟩
  exact ⟨w, C, htw, Nat.lt_of_lt_of_le hwu hu, helect.grows hg, hnot⟩

theorem LiveVote.of_grows {s s' : State node entry} {v c : node} {t : Nat}
    (h : LiveVote s' v t c) (hg : Grows s s') : LiveVote s v t c := by
  cases hlead : s.lead t with
  | none => exact Or.inl hlead
  | some x =>
      have hlead' := hg.lead hlead
      rcases h with hnone | ⟨Q, hsome, hvQ⟩
      · rw [hlead'] at hnone
        cases hnone
      · rw [hlead'] at hsome
        exact Or.inr ⟨Q, by rw [hlead]; exact hsome, hvQ⟩

structure AckInv (termOf : entry -> Nat) (s : State node entry) : Prop where
  ack_le : forall {v t j}, s.acks v t j -> t ≤ s.term v
  ack_lead : forall {v t j}, s.acks v t j ->
    (exists x, s.lead t = some x) ∧ j ≤ (s.termLog t).length
  ack_kept : forall {v t j i}, s.acks v t j -> i ≤ j ->
    (s.termLog t).take i <+: s.log v ∨
      LostBetween s ((s.termLog t).take i) t (s.term v + 1)
  vote_safe : forall {v t u c C j i}, s.votes v u c -> s.cand u c = some C ->
    LiveVote s v u c -> s.acks v t j -> t < u -> i ≤ j ->
    termAt termOf (s.termLog t) i = t ->
    (s.termLog t).take i <+: C ∨ LostBetween s ((s.termLog t).take i) t u

/-!
## The voting rule carries prefixes
-/

section Carry

variable {voters : Finset node} {termOf : entry -> Nat}
variable {s : State node entry}

theorem LogInv.lead_pos (hv : VoteInv s) (hl : LogInv voters termOf s)
    {t : Nat} {x : node × Finset node} (h : s.lead t = some x) : 1 ≤ t := by
  rcases x with ⟨l, Q⟩
  rcases hl.lead_cand h with ⟨C, hC, _⟩
  exact hv.cand_pos hC

theorem exists_last_of_lastTerm_ne_zero {L : List entry}
    (h : lastTerm termOf L ≠ 0) :
    exists e, L[L.length - 1]? = some e ∧ termOf e = lastTerm termOf L ∧
      1 ≤ L.length := by
  rcases getElem?_of_termAt termOf (rfl : termAt termOf L L.length = _) h with
    ⟨e, he, hterm, hlen, _⟩
  exact ⟨e, he, hterm, hlen⟩

theorem Fits.prefix_termLog_lastTerm {L : List entry}
    (hfit : Fits termOf s L) (h : lastTerm termOf L ≠ 0) :
    (exists x, s.lead (lastTerm termOf L) = some x) ∧
      L <+: s.termLog (lastTerm termOf L) := by
  rcases exists_last_of_lastTerm_ne_zero h with ⟨e, he, hterm, hlen⟩
  rcases hfit _ e he with ⟨hlead, hpre⟩
  rw [hterm] at hlead hpre
  refine ⟨hlead, ?_⟩
  rwa [Nat.sub_add_cancel hlen, List.take_length] at hpre

theorem Fits.le_lastTerm (hl : LogInv voters termOf s) {L : List entry}
    (hfit : Fits termOf s L) {d : entry} (hd : d ∈ L) :
    termOf d ≤ lastTerm termOf L := by
  have hpos : 1 ≤ L.length := List.length_pos_of_mem hd
  have hlt : L.length - 1 < L.length := by lia
  have hget : L[L.length - 1]? = some L[L.length - 1] :=
    List.getElem?_eq_getElem hlt
  have hlast : lastTerm termOf L = termOf L[L.length - 1] := by
    have h := termAt_succ_of_getElem? termOf hget
    rwa [Nat.sub_add_cancel hpos] at h
  rw [hlast]
  apply Fits.le_of_mem_take hl hfit hget
  rwa [Nat.sub_add_cancel hpos, List.take_length]

/-- A prefix ending in an entry of term `t` that the voter holds is held by
every candidate the voter may grant, unless a leader in between lost it. -/
theorem LogInv.upToDate_carries (hl : LogInv voters termOf s)
    {t u i : Nat} {c : node} {C L P : List entry}
    (hcand : s.cand u c = some C) (hL : Fits termOf s L)
    (hup : UpToDate termOf C L) (ht : 1 ≤ t)
    (hterm : termAt termOf P i = t) (hP : P <+: L) :
    P <+: C ∨ LostBetween s P t u := by
  rcases getElem?_of_termAt termOf hterm (by lia) with ⟨d, hd, hdt, _, _⟩
  have hdL : d ∈ L := hP.subset (List.mem_of_getElem? hd)
  have htL : t ≤ lastTerm termOf L := by
    rw [← hdt]
    exact hL.le_lastTerm hl hdL
  have hC := hl.cand_fits hcand
  rcases hup with hlt | ⟨heq, hlen⟩
  · have hne : lastTerm termOf C ≠ 0 := by lia
    rcases exists_last_of_lastTerm_ne_zero hne with ⟨e, he, heC, _⟩
    rcases hC.prefix_termLog_lastTerm hne with ⟨⟨⟨l, Q⟩, hlead⟩, hCpre⟩
    rcases hl.lead_cand hlead with ⟨C', hC', hC'pre, _⟩
    have heu : lastTerm termOf C < u := by
      rw [← heC]
      exact hl.cand_lt hcand e (List.mem_of_getElem? he)
    by_cases hPC' : P <+: C'
    · apply Or.inl
      rcases Nat.le_total C.length C'.length with hle | hle
      · have hsub : C <+: C' := List.prefix_of_prefix_length_le hCpre hC'pre hle
        have hcontra := hl.cand_lt hC' e
          (hsub.subset (List.mem_of_getElem? he))
        lia
      · exact hPC'.trans (List.prefix_of_prefix_length_le hC'pre hCpre hle)
    · exact Or.inr ⟨_, C', by lia, heu, ⟨l, Q, hlead, hC'⟩, hPC'⟩
  · apply Or.inl
    have hneC : lastTerm termOf C ≠ 0 := by lia
    have hneL : lastTerm termOf L ≠ 0 := by lia
    have hCpre := (hC.prefix_termLog_lastTerm hneC).right
    have hLpre := (hL.prefix_termLog_lastTerm hneL).right
    rw [← heq] at hLpre
    exact hP.trans (List.prefix_of_prefix_length_le hLpre hCpre hlen)

end Carry

/-!
## Acknowledgements along a transition
-/

section Acks

variable {voters : Finset node} {termOf : entry -> Nat}
variable {s s' : State node entry} {n : node}

theorem AckInv.termLog_take (ha : AckInv termOf s) (hg : Grows s s')
    {v : node} {t j i : Nat} (hack : s.acks v t j) (hi : i ≤ j) :
    (s'.termLog t).take i = (s.termLog t).take i := by
  rcases ha.ack_lead hack with ⟨⟨x, hx⟩, hj⟩
  exact take_eq_of_pre (hg.termLog hx) (Nat.le_trans hi hj)

/-- What an acceptance does to a prefix the node held before: it stays, or the
leader it accepted from was elected without it. -/
theorem LogInv.accept_keeps (hl : LogInv voters termOf s) {l : node}
    {Q : Finset node} {j t : Nat} {L P : List entry}
    (hlead : s.lead (s.term n) = some (l, Q))
    (hL : (s.termLog (s.term n)).take j <+: s.log n ∧ L = s.log n ∨
      ¬ (s.termLog (s.term n)).take j <+: s.log n ∧
        L = (s.termLog (s.term n)).take j)
    (hP : P <+: s.log n) (ht : t < s.term n) :
    P <+: L ∨ LostBetween s P t (s.term n + 1) := by
  rcases hL with ⟨_, rfl⟩ | ⟨hnot, rfl⟩
  · exact Or.inl hP
  · rcases hl.lead_cand hlead with ⟨C, hC, hCpre, _⟩
    by_cases hPC : P <+: C
    · apply Or.inl
      have hPt : P <+: s.termLog (s.term n) := hPC.trans hCpre
      rcases Nat.le_total P.length
          ((s.termLog (s.term n)).take j).length with hle | hle
      · exact List.prefix_of_prefix_length_le hPt (List.take_prefix _ _) hle
      · have hsub : (s.termLog (s.term n)).take j <+: P :=
          List.prefix_of_prefix_length_le (List.take_prefix _ _) hPt hle
        exact absurd (hsub.trans hP) hnot
    · exact Or.inr ⟨_, C, ht, Nat.lt_succ_self _, ⟨l, Q, hlead, hC⟩, hPC⟩

theorem AckInv.kept_of_same (ha : AckInv termOf s) (hg : Grows s s')
    {v : node} {t j i : Nat} (hack : s.acks v t j) (hi : i ≤ j)
    (hlog : s.log v <+: s'.log v) :
    (s'.termLog t).take i <+: s'.log v ∨
      LostBetween s' ((s'.termLog t).take i) t (s'.term v + 1) := by
  rw [ha.termLog_take hg hack hi]
  rcases ha.ack_kept hack hi with hpre | hlost
  · exact Or.inl (hpre.trans hlog)
  · exact Or.inr (hlost.grows hg (Nat.succ_le_succ (hg.term v)))

theorem AckInv.safe_of_old (hv : VoteInv s) (ha : AckInv termOf s)
    (hg : Grows s s') {v c : node} {t u j i : Nat} {C : List entry}
    (hvote : s.votes v u c) (hcand : s'.cand u c = some C)
    (hlive : LiveVote s' v u c) (hack : s.acks v t j) (htu : t < u)
    (hi : i ≤ j) (hterm : termAt termOf (s'.termLog t) i = t) :
    (s'.termLog t).take i <+: C ∨
      LostBetween s' ((s'.termLog t).take i) t u := by
  rcases hv.vote_cand hvote with ⟨C', hC'⟩
  have hCC' : C' = C := by
    rw [hg.cand hC'] at hcand
    exact Option.some.inj hcand
  rcases ha.ack_lead hack with ⟨⟨x, hx⟩, hj⟩
  rw [termAt_of_pre termOf (hg.termLog hx) (Nat.le_trans hi hj)] at hterm
  rw [ha.termLog_take hg hack hi, ← hCC']
  rcases ha.vote_safe hvote hC' (hlive.of_grows hg) hack htu hi hterm with
    hpre | hlost
  · exact Or.inl hpre
  · exact Or.inr (hlost.grows hg (Nat.le_refl _))

theorem AckInv.of_grows (hv : VoteInv s) (ha : AckInv termOf s)
    (hg : Grows s s') (hlog : forall v, s.log v <+: s'.log v)
    (hvotes : forall {v t c}, s'.votes v t c -> s.votes v t c)
    (hacks : forall {v t j}, s'.acks v t j -> s.acks v t j) :
    AckInv termOf s' := by
  constructor
  · intro v t j hack
    exact Nat.le_trans (ha.ack_le (hacks hack)) (hg.term v)
  · intro v t j hack
    rcases ha.ack_lead (hacks hack) with ⟨⟨x, hx⟩, hj⟩
    exact ⟨⟨x, hg.lead hx⟩, Nat.le_trans hj (hg.termLog hx).length_le⟩
  · intro v t j i hack hi
    exact ha.kept_of_same hg (hacks hack) hi (hlog v)
  · intro v t u c C j i hvote hcand hlive hack htu hi hterm
    exact ha.safe_of_old hv hg (hvotes hvote) hcand hlive (hacks hack) htu hi
      hterm

variable [DecidableEq node]

theorem AckInv.of_ack (hv : VoteInv s) (ha : AckInv termOf s)
    {j : Nat} {L : List entry} {x : node × Finset node}
    (hlead : s.lead (s.term n) = some x)
    (hj : j ≤ (s.termLog (s.term n)).length)
    (hnew : (s.termLog (s.term n)).take j <+: L)
    (hkeep : forall {P t}, P <+: s.log n -> t < s.term n ->
      P <+: L ∨ LostBetween s P t (s.term n + 1))
    (hsame : forall {i}, i ≤ (s.termLog (s.term n)).length ->
      (s.termLog (s.term n)).take i <+: s.log n ->
      (s.termLog (s.term n)).take i <+: L) :
    AckInv termOf
      { s with
        log := Function.update s.log n L
        acks := fun v t i =>
          s.acks v t i ∨ (v = n ∧ t = s.term n ∧ i = j) } := by
  have hg : Grows s
      { s with
        log := Function.update s.log n L
        acks := fun v t i =>
          s.acks v t i ∨ (v = n ∧ t = s.term n ∧ i = j) } :=
    { Grows.refl s with acks := Or.inl }
  constructor
  · intro v t i hack
    rcases hack with hack | ⟨rfl, rfl, rfl⟩
    · exact ha.ack_le hack
    · exact Nat.le_refl _
  · intro v t i hack
    rcases hack with hack | ⟨rfl, rfl, rfl⟩
    · exact ha.ack_lead hack
    · exact ⟨⟨x, hlead⟩, hj⟩
  · intro v t k i hack hi
    rcases hack with hack | ⟨rfl, rfl, rfl⟩
    · by_cases hvn : v = n
      · subst hvn
        simp only [Function.update_self]
        rcases ha.ack_kept hack hi with hpre | hlost
        · rcases Nat.lt_or_eq_of_le (ha.ack_le hack) with hlt | heq
          · rcases hkeep hpre hlt with hpre | hlost
            · exact Or.inl hpre
            · exact Or.inr (hlost.grows hg (Nat.le_refl _))
          · apply Or.inl
            subst heq
            exact hsame (Nat.le_trans hi (ha.ack_lead hack).right) hpre
        · exact Or.inr (hlost.grows hg (Nat.le_refl _))
      · exact ha.kept_of_same hg hack hi
          (by simp only [Function.update_of_ne hvn]; exact List.prefix_refl _)
    · apply Or.inl
      simp only [Function.update_self]
      refine List.IsPrefix.trans ?_ hnew
      exact List.take_prefix_take_left hi
  · intro v t u c C k i hvote hcand hlive hack htu hi hterm
    rcases hack with hack | ⟨rfl, rfl, rfl⟩
    · exact ha.safe_of_old hv hg hvote hcand hlive hack htu hi hterm
    · have hle := hv.vote_le hvote
      lia

theorem AckInv.step (hv : VoteInv s) (hl : LogInv voters termOf s)
    (ha : AckInv termOf s) (hstep : Step voters termOf n s s') :
    AckInv termOf s' := by
  have hg := Grows.of_step hv hl hstep
  cases hstep with
  | adopt =>
      exact ha.of_grows hv hg (fun _ => List.prefix_refl _) id id
  | campaign =>
      constructor
      · intro v t j hack
        exact Nat.le_trans (ha.ack_le hack) (hg.term v)
      · exact ha.ack_lead
      · intro v t j i hack hi
        exact ha.kept_of_same hg hack hi (List.prefix_refl _)
      · intro v t u c C j i hvote hcand hlive hack htu hi hterm
        rcases hvote with hvote | ⟨rfl, rfl, rfl⟩
        · exact ha.safe_of_old hv hg hvote hcand hlive hack htu hi hterm
        · simp only [cand_update_self, Option.some.injEq] at hcand
          subst hcand
          rcases ha.ack_kept hack hi with hpre | hlost
          · exact Or.inl hpre
          · exact Or.inr (hlost.grows hg (Nat.le_refl _))
  | grant hcand hup huniq =>
      constructor
      · exact ha.ack_le
      · exact ha.ack_lead
      · intro v t j i hack hi
        exact ha.kept_of_same hg hack hi (List.prefix_refl _)
      · intro v t u c C j i hvote hcand' hlive hack htu hi hterm
        rcases hvote with hvote | ⟨rfl, rfl, rfl⟩
        · exact ha.safe_of_old hv hg hvote hcand' hlive hack htu hi hterm
        · rcases hlive with hnone | ⟨Q, hlead, hvQ⟩
          · rcases ha.ack_kept hack hi with hpre | hlost
            · rcases (ha.ack_lead hack).left with ⟨x, hx⟩
              have hlen := Nat.le_trans hi (ha.ack_lead hack).right
              rw [hcand] at hcand'
              cases hcand'
              have htake : termAt termOf ((s.termLog t).take i) i = t := by
                refine Eq.trans (Eq.symm ?_) hterm
                apply termAt_of_pre termOf (List.take_prefix i _)
                rw [List.length_take]
                lia
              rcases hl.upToDate_carries hcand (hl.log_fits v) hup
                  (hl.lead_pos hv hx) htake hpre with hpre | hlost
              · exact Or.inl hpre
              · exact Or.inr (hlost.grows hg (Nat.le_refl _))
            · rcases hlost with ⟨w, C', htw, hwu, helect, hnot⟩
              apply Or.inr
              refine ⟨w, C', htw, ?_, helect.grows hg, hnot⟩
              have hne : w ≠ s.term v := by
                intro hw
                rcases helect with ⟨l, Q, hlead, _⟩
                rw [hw] at hlead
                rw [hnone] at hlead
                cases hlead
              lia
          · have hvote := (hl.lead_quorum hlead).right v hvQ
            exact ha.safe_of_old hv hg hvote hcand'
              (Or.inr ⟨Q, hlead, hvQ⟩) hack htu hi hterm
  | elect =>
      exact ha.of_grows hv hg (fun _ => List.prefix_refl _) id id
  | extend hlead hes =>
      refine ha.of_grows hv hg ?_ id id
      intro v
      by_cases hvn : v = n
      · subst hvn
        simp only [Function.update_self]
        exact List.prefix_append _ _
      · simp only [Function.update_of_ne hvn]
        exact List.prefix_refl _
  | accept hlead hne hj hL =>
      refine ha.of_ack hv hlead hj ?_ ?_ ?_
      · rcases hL with ⟨hpre, rfl⟩ | ⟨_, rfl⟩
        · exact hpre
        · exact List.prefix_refl _
      · intro P t hP ht
        exact hl.accept_keeps hlead hL hP ht
      · intro i _ hpre
        rcases hL with ⟨_, rfl⟩ | ⟨hnot, rfl⟩
        · exact hpre
        · rename_i j _
          rcases Nat.le_total i j with hij | hji
          · exact List.take_prefix_take_left hij
          · exact absurd ((List.take_prefix_take_left hji).trans hpre) hnot
  | selfAck hlead hj =>
      rename_i Q j
      have hlog := hl.lead_log hlead
      have hstep := ha.of_ack (L := s.log n) hv hlead (hlog ▸ hj)
        (hlog ▸ List.take_prefix j _)
        (fun hP _ => Or.inl hP) (fun _ hpre => hpre)
      rw [Function.update_eq_self] at hstep
      exact hstep
  | choose | learn =>
      exact ha.of_grows hv hg (fun _ => List.prefix_refl _) id id

end Acks

/-!
## Leader completeness
-/

section Completeness

variable [DecidableEq node] {voters : Finset node} {termOf : entry -> Nat}
variable {s : State node entry}

/-- Every leader of a later term was elected with each prefix that a quorum
acknowledged and that ends in an entry of its own term. -/
theorem AckInv.completeness (hl : LogInv voters termOf s)
    (ha : AckInv termOf s) {t i : Nat} {R : Finset node}
    (hterm : termAt termOf (s.termLog t) i = t) (hR : IsQuorum voters R)
    (hacks : forall v, v ∈ R -> exists j, i ≤ j ∧ s.acks v t j) :
    forall u C, t < u -> ElectedWith s u C -> (s.termLog t).take i <+: C := by
  intro u
  induction u using Nat.strong_induction_on with
  | _ u ih =>
      intro C htu helect
      rcases helect with ⟨l, Q, hlead, hcand⟩
      rcases hl.lead_quorum hlead with ⟨hQ, hvotes⟩
      rcases hR.meet hQ with ⟨v, hvR, hvQ⟩
      rcases hacks v hvR with ⟨j, hij, hack⟩
      have hsafe := ha.vote_safe (hvotes v hvQ) hcand
        (Or.inr ⟨Q, hlead, hvQ⟩) hack htu hij hterm
      rcases hsafe with hpre | ⟨w, C', htw, hwu, helect', hnot⟩
      · exact hpre
      · exact absurd (ih w hwu C' htw helect') hnot

end Completeness

/-!
## Locality
-/

structure Elsewhere (n : node) (s s' : State node entry) : Prop where
  term : forall v, v ≠ n -> s'.term v = s.term v
  log : forall v, v ≠ n -> s'.log v = s.log v
  commit : forall v, v ≠ n -> s'.commit v = s.commit v
  votes : forall v, v ≠ n -> s'.votes v = s.votes v
  lead : forall {v t Q}, v ≠ n -> s'.lead t = some (v, Q) ->
    s.lead t = some (v, Q)

theorem Elsewhere.trans {n : node} {s s' s'' : State node entry}
    (h : Elsewhere n s s') (h' : Elsewhere n s' s'') : Elsewhere n s s'' where
  term := fun v hv => (h'.term v hv).trans (h.term v hv)
  log := fun v hv => (h'.log v hv).trans (h.log v hv)
  commit := fun v hv => (h'.commit v hv).trans (h.commit v hv)
  votes := fun v hv => (h'.votes v hv).trans (h.votes v hv)
  lead := fun hv hlead => h.lead hv (h'.lead hv hlead)

section Locality

variable [DecidableEq node] {voters : Finset node} {termOf : entry -> Nat}
variable {s s' : State node entry} {n : node}

theorem Step.elsewhere (hstep : Step voters termOf n s s') :
    Elsewhere n s s' := by
  have hsame : forall {f : node -> Nat} {x : Nat} (v : node), v ≠ n ->
      Function.update f n x v = f v :=
    fun v hv => Function.update_of_ne hv ..
  have hvotes : forall {v : node} {t : Nat} {c : node}, v ≠ n ->
      (fun u d => s.votes v u d ∨ (v = n ∧ u = t ∧ d = c)) = s.votes v := by
    intro v t c hv
    funext u d
    simp [hv]
  cases hstep with
  | adopt =>
      exact ⟨hsame, fun _ _ => rfl, fun _ _ => rfl, fun _ _ => rfl, fun _ h => h⟩
  | campaign =>
      exact ⟨hsame, fun _ _ => rfl, fun _ _ => rfl, fun _ hv => hvotes hv,
        fun _ h => h⟩
  | grant =>
      exact ⟨fun _ _ => rfl, fun _ _ => rfl, fun _ _ => rfl,
        fun _ hv => hvotes hv, fun _ h => h⟩
  | elect =>
      refine ⟨fun _ _ => rfl, fun _ _ => rfl, fun _ _ => rfl, fun _ _ => rfl, ?_⟩
      intro v t Q hv hlead
      by_cases ht : t = s.term n
      · subst ht
        simp only [Function.update_self] at hlead
        cases hlead
        exact absurd rfl hv
      · simpa only [Function.update_of_ne ht] using hlead
  | selfAck =>
      exact ⟨fun _ _ => rfl, fun _ _ => rfl, fun _ _ => rfl, fun _ _ => rfl,
        fun _ h => h⟩
  | extend | accept =>
      exact ⟨fun _ _ => rfl, fun _ hv => Function.update_of_ne hv ..,
        fun _ _ => rfl, fun _ _ => rfl, fun _ h => h⟩
  | choose | learn =>
      exact ⟨fun _ _ => rfl, fun _ _ => rfl, hsame, fun _ _ => rfl,
        fun _ h => h⟩

theorem Steps.elsewhere (hsteps : Steps voters termOf n s s') :
    Elsewhere n s s' := by
  induction hsteps with
  | refl =>
      exact ⟨fun _ _ => rfl, fun _ _ => rfl, fun _ _ => rfl, fun _ _ => rfl,
        fun _ h => h⟩
  | tail _ hstep ih => exact ih.trans hstep.elsewhere

end Locality

/-!
## Commitment
-/

structure CommitInv (voters : Finset node) (termOf : entry -> Nat)
    (s : State node entry) : Prop where
  chosen_ok : forall {t i}, s.chosen t i ->
    (exists x, s.lead t = some x) ∧ termAt termOf (s.termLog t) i = t ∧
      exists R, IsQuorum voters R ∧
        forall v, v ∈ R -> exists j, i ≤ j ∧ s.acks v t j
  commit_le : forall n, s.commit n ≤ (s.log n).length
  commit_ok : forall n, s.commit n = 0 ∨
    exists t k, s.chosen t k ∧ t ≤ s.term n ∧ s.commit n ≤ k ∧
      (s.log n).take (s.commit n) <+: s.termLog t
  lead_commit : forall {n Q i}, s.lead (s.term n) = some (n, Q) ->
    s.chosen (s.term n) i -> i ≤ s.commit n

structure Inv (voters : Finset node) (termOf : entry -> Nat)
    (s : State node entry) : Prop where
  vote : VoteInv s
  log : LogInv voters termOf s
  ack : AckInv termOf s
  commit : CommitInv voters termOf s

section Commitment

variable {voters : Finset node} {termOf : entry -> Nat}
variable {s s' : State node entry} {n : node}

theorem CommitInv.chosen_bounds (hv : VoteInv s) (hl : LogInv voters termOf s)
    (hc : CommitInv voters termOf s) {t i : Nat} (h : s.chosen t i) :
    1 ≤ i ∧ i ≤ (s.termLog t).length := by
  rcases hc.chosen_ok h with ⟨⟨x, hx⟩, hterm, _⟩
  have hpos := hl.lead_pos hv hx
  rcases getElem?_of_termAt termOf hterm (by lia) with ⟨e, _, _, h1, hlen⟩
  exact ⟨h1, hlen⟩

theorem CommitInv.chosen_grows (hv : VoteInv s) (hl : LogInv voters termOf s)
    (hc : CommitInv voters termOf s) (hg : Grows s s') {t i : Nat}
    (h : s.chosen t i) :
    (exists x, s'.lead t = some x) ∧ termAt termOf (s'.termLog t) i = t ∧
      exists R, IsQuorum voters R ∧
        forall v, v ∈ R -> exists j, i ≤ j ∧ s'.acks v t j := by
  have hlen := (hc.chosen_bounds hv hl h).right
  rcases hc.chosen_ok h with ⟨⟨x, hx⟩, hterm, R, hR, hacks⟩
  refine ⟨⟨x, hg.lead hx⟩, ?_, R, hR, ?_⟩
  · rw [termAt_of_pre termOf (hg.termLog hx) hlen]
    exact hterm
  · intro v hvR
    rcases hacks v hvR with ⟨j, hij, hack⟩
    exact ⟨j, hij, hg.acks hack⟩

/-- A chosen prefix is in the log of the leader of every later term. -/
theorem Inv.chosen_prefix [DecidableEq node] (h : Inv voters termOf s)
    {t u i : Nat} {x : node × Finset node} (hch : s.chosen t i)
    (hlead : s.lead u = some x) (htu : t ≤ u) :
    (s.termLog t).take i <+: s.termLog u := by
  rcases Nat.lt_or_eq_of_le htu with hlt | rfl
  · rcases x with ⟨l, Q⟩
    rcases h.commit.chosen_ok hch with ⟨_, hterm, R, hR, hacks⟩
    rcases h.log.lead_cand hlead with ⟨C, hC, hpre, _⟩
    have helect : ElectedWith s u C := ⟨l, Q, hlead, hC⟩
    exact (h.ack.completeness h.log hterm hR hacks u C hlt
      helect).trans hpre
  · exact List.take_prefix _ _

theorem Inv.chosen_comparable [DecidableEq node] (h : Inv voters termOf s)
    {t u i k : Nat} (hi : s.chosen t i) (hk : s.chosen u k) :
    (s.termLog t).take i <+: (s.termLog u).take k ∨
      (s.termLog u).take k <+: (s.termLog t).take i := by
  have key : forall {t u i k : Nat}, t ≤ u -> s.chosen t i -> s.chosen u k ->
      (s.termLog t).take i <+: (s.termLog u).take k ∨
        (s.termLog u).take k <+: (s.termLog t).take i := by
    intro t u i k htu hi hk
    rcases (h.commit.chosen_ok hk).left with ⟨x, hx⟩
    exact List.prefix_or_prefix_of_prefix (h.chosen_prefix hi hx htu)
      (List.take_prefix _ _)
  rcases Nat.le_total t u with htu | hut
  · exact key htu hi hk
  · exact (key hut hk hi).symm

/-- Agreement: of the committed prefixes of two nodes one extends the
other. -/
theorem Inv.agreement [DecidableEq node] (h : Inv voters termOf s)
    (n m : node) :
    (s.log n).take (s.commit n) <+: (s.log m).take (s.commit m) ∨
      (s.log m).take (s.commit m) <+: (s.log n).take (s.commit n) := by
  rcases h.commit.commit_ok n with hn | ⟨t, k, hk, _, hnk, hn⟩
  · rw [hn, List.take_zero]
    exact Or.inl (List.nil_prefix)
  rcases h.commit.commit_ok m with hm | ⟨u, j, hj, _, hmj, hm⟩
  · rw [hm, List.take_zero]
    exact Or.inr (List.nil_prefix)
  have hn' : (s.log n).take (s.commit n) <+: (s.termLog t).take k := by
    rw [List.prefix_take_iff]
    refine ⟨hn, ?_⟩
    rw [List.length_take]
    lia
  have hm' : (s.log m).take (s.commit m) <+: (s.termLog u).take j := by
    rw [List.prefix_take_iff]
    refine ⟨hm, ?_⟩
    rw [List.length_take]
    lia
  rcases h.chosen_comparable hk hj with hkj | hjk
  · exact List.prefix_or_prefix_of_prefix (hn'.trans hkj) hm'
  · exact List.prefix_or_prefix_of_prefix hn' (hm'.trans hjk)

theorem Inv.commit_prefix_termLog [DecidableEq node]
    (h : Inv voters termOf s) {x : node × Finset node}
    (hlead : s.lead (s.term n) = some x) :
    (s.log n).take (s.commit n) <+: s.termLog (s.term n) := by
  rcases h.commit.commit_ok n with hzero | ⟨t, k, hk, htn, hnk, hpre⟩
  · rw [hzero, List.take_zero]
    exact List.nil_prefix
  · have hn : (s.log n).take (s.commit n) <+: (s.termLog t).take k := by
      rw [List.prefix_take_iff]
      refine ⟨hpre, ?_⟩
      rw [List.length_take]
      lia
    exact hn.trans (h.chosen_prefix hk hlead htn)

theorem Inv.commit_le_of_newest [DecidableEq node] (h : Inv voters termOf s)
    {Q : Finset node} (hlead : s.lead (s.term n) = some (n, Q))
    (hown : termAt termOf (s.log n) (s.commit n) = s.term n)
    (hnewest : forall u x, s.lead u = some x -> u ≤ s.term n) (m : node) :
    s.commit m ≤ s.commit n := by
  rcases h.commit.commit_ok m with hzero | ⟨t, k, hk, _, hmk, _⟩
  · lia
  rcases (h.commit.chosen_ok hk).left with ⟨x, hx⟩
  have hbound := (h.commit.chosen_bounds h.vote h.log hk).right
  rcases Nat.lt_or_eq_of_le (hnewest t x hx) with hlt | rfl
  · rcases h.commit.chosen_ok hk with ⟨_, hterm, R, hR, hacks⟩
    rcases h.log.lead_cand hlead with ⟨C, hC, hpre, _⟩
    have hkC := h.ack.completeness h.log hterm hR hacks (s.term n) C
      hlt ⟨n, Q, hlead, hC⟩
    have hpos := h.log.lead_pos h.vote hlead
    rcases getElem?_of_termAt termOf hown (by lia) with
      ⟨e, he, heterm, h1, _⟩
    have hCn : C.length < s.commit n := by
      rcases Nat.lt_or_ge C.length (s.commit n) with hlt' | hge
      · exact hlt'
      · rw [h.log.lead_log hlead] at he
        rcases hpre with ⟨rest, hrest⟩
        rw [← hrest, List.getElem?_append_left (by lia)] at he
        have hcontra := h.log.cand_lt hC e (List.mem_of_getElem? he)
        lia
    have hlen := hkC.length_le
    rw [List.length_take] at hlen
    lia
  · exact Nat.le_trans hmk (h.commit.lead_commit hlead hk)

/-!
### Settled prefixes

A prefix that was committed once binds every later state of the run, whatever
becomes of the node that committed it.
-/

/-- A prefix inside one that was chosen at or before term `u`. -/
def Settled (s : State node entry) (u : Nat) (P : List entry) : Prop :=
  P = [] ∨ exists t k, s.chosen t k ∧ t ≤ u ∧ P <+: (s.termLog t).take k

theorem Inv.settled_commit (h : Inv voters termOf s) (n : node) :
    Settled s (s.term n) ((s.log n).take (s.commit n)) := by
  rcases h.commit.commit_ok n with hzero | ⟨t, k, hk, htn, hnk, hpre⟩
  · exact Or.inl (by rw [hzero, List.take_zero])
  · refine Or.inr ⟨t, k, hk, htn, List.prefix_take_iff.mpr ⟨hpre, ?_⟩⟩
    rw [List.length_take]
    lia

theorem Settled.grows {u : Nat} {P : List entry} (h : Settled s u P)
    (hinv : Inv voters termOf s) (hg : Grows s s') : Settled s' u P := by
  rcases h with hnil | ⟨t, k, hk, htu, hpre⟩
  · exact Or.inl hnil
  · rcases (hinv.commit.chosen_ok hk).left with ⟨x, hx⟩
    exact Or.inr ⟨t, k, hg.chosen hk, htu, hpre.trans ((hg.termLog hx).take k)⟩

/-- The leader of term `u` or of a later one holds what was settled by then. -/
theorem Inv.settled_prefix [DecidableEq node] (h : Inv voters termOf s) {u v : Nat}
    {P : List entry} {x : node × Finset node} (hP : Settled s u P) (hlead : s.lead v = some x)
    (huv : u ≤ v) : P <+: s.termLog v := by
  rcases hP with rfl | ⟨t, k, hk, htu, hpre⟩
  · exact List.nil_prefix
  · exact hpre.trans (h.chosen_prefix hk hlead (Nat.le_trans htu huv))

theorem CommitInv.ok_of_keep (hc : CommitInv voters termOf s)
    (hg : Grows s s')
    (hkeep : (s'.log n).take (s.commit n) = (s.log n).take (s.commit n))
    (hcommit : s'.commit n = s.commit n) :
    s'.commit n = 0 ∨
      exists t k, s'.chosen t k ∧ t ≤ s'.term n ∧ s'.commit n ≤ k ∧
        (s'.log n).take (s'.commit n) <+: s'.termLog t := by
  rw [hcommit, hkeep]
  rcases hc.commit_ok n with hzero | ⟨t, k, hk, htn, hnk, hpre⟩
  · exact Or.inl hzero
  · rcases (hc.chosen_ok hk).left with ⟨x, hx⟩
    exact Or.inr ⟨t, k, hg.chosen hk, Nat.le_trans htn (hg.term n), hnk,
      hpre.trans (hg.termLog hx)⟩

theorem CommitInv.of_keep (hv : VoteInv s) (hl : LogInv voters termOf s)
    (hc : CommitInv voters termOf s) (hg : Grows s s')
    (hlen : forall v, s.commit v ≤ (s'.log v).length)
    (hkeep : forall v,
      (s'.log v).take (s.commit v) = (s.log v).take (s.commit v))
    (hcommit : s'.commit = s.commit)
    (hchosen : forall {t i}, s'.chosen t i -> s.chosen t i)
    (hlead : forall {v Q i}, s'.lead (s'.term v) = some (v, Q) ->
      s.chosen (s'.term v) i -> i ≤ s.commit v) :
    CommitInv voters termOf s' := by
  constructor
  · intro t i hch
    exact hc.chosen_grows hv hl hg (hchosen hch)
  · intro v
    rw [hcommit]
    exact hlen v
  · intro v
    exact hc.ok_of_keep hg (hkeep v) (by rw [hcommit])
  · intro v Q i hld hch
    rw [hcommit]
    exact hlead hld (hchosen hch)

theorem CommitInv.raise [DecidableEq node] (hc : CommitInv voters termOf s)
    {chosen : Nat -> Nat -> Prop} {t i k : Nat}
    (hg : Grows s { s with
      commit := Function.update s.commit n (max (s.commit n) i)
      chosen := chosen })
    (hch : forall {t i}, chosen t i ->
      (exists x, s.lead t = some x) ∧ termAt termOf (s.termLog t) i = t ∧
        exists R, IsQuorum voters R ∧
          forall v, v ∈ R -> exists j, i ≤ j ∧ s.acks v t j)
    (hlead : forall {v Q j}, s.lead (s.term v) = some (v, Q) ->
      chosen (s.term v) j ->
      j ≤ Function.update s.commit n (max (s.commit n) i) v)
    (hk : chosen t k) (ht : t ≤ s.term n) (hik : i ≤ k)
    (hlen : i ≤ (s.log n).length) (hpre : (s.log n).take i <+: s.termLog t) :
    CommitInv voters termOf { s with
      commit := Function.update s.commit n (max (s.commit n) i)
      chosen := chosen } := by
  constructor
  · exact hch
  · intro v
    by_cases hvn : v = n
    · subst hvn
      simp only [Function.update_self]
      exact Nat.max_le.mpr ⟨hc.commit_le v, hlen⟩
    · simp only [Function.update_of_ne hvn]
      exact hc.commit_le v
  · intro v
    by_cases hvn : v = n
    · subst hvn
      rcases Nat.le_total i (s.commit v) with hle | hle
      · exact hc.ok_of_keep hg rfl (by simp [Nat.max_eq_left hle])
      · apply Or.inr
        simp only [Function.update_self, Nat.max_eq_right hle]
        exact ⟨t, k, hk, ht, hik, hpre⟩
    · exact hc.ok_of_keep hg rfl (by simp only [Function.update_of_ne hvn])
  · intro v Q j hld hj
    exact hlead hld hj

structure KeepsCommit (s s' : State node entry) (v : node) : Prop where
  commit : s.commit v ≤ s'.commit v
  take : (s'.log v).take (s.commit v) = (s.log v).take (s.commit v)
  length : s.commit v ≤ (s'.log v).length

theorem KeepsCommit.trans {s s' s'' : State node entry} {v : node}
    (h : KeepsCommit s s' v) (h' : KeepsCommit s' s'' v) :
    KeepsCommit s s'' v where
  commit := Nat.le_trans h.commit h'.commit
  take := by
    have htake := congrArg (List.take (s.commit v)) h'.take
    rw [List.take_take, List.take_take, Nat.min_eq_left h.commit] at htake
    rw [htake, h.take]
  length := Nat.le_trans h.commit h'.length

theorem Inv.accept_keeps [DecidableEq node] (h : Inv voters termOf s)
    {x : node × Finset node} {j : Nat} {L : List entry}
    (hlead : s.lead (s.term n) = some x)
    (hL : (s.termLog (s.term n)).take j <+: s.log n ∧ L = s.log n ∨
      ¬ (s.termLog (s.term n)).take j <+: s.log n ∧
        L = (s.termLog (s.term n)).take j) :
    L.take (s.commit n) = (s.log n).take (s.commit n) ∧
      s.commit n ≤ L.length := by
  have hown := h.commit_prefix_termLog hlead
  have hlen : ((s.log n).take (s.commit n)).length = s.commit n := by
    rw [List.length_take]
    exact Nat.min_eq_left (h.commit.commit_le n)
  rcases hL with ⟨_, rfl⟩ | ⟨hnot, rfl⟩
  · exact ⟨rfl, h.commit.commit_le n⟩
  · have hjn : s.commit n ≤ ((s.termLog (s.term n)).take j).length := by
      rcases Nat.le_total (s.commit n)
          ((s.termLog (s.term n)).take j).length with hle | hle
      · exact hle
      · have hsub : (s.termLog (s.term n)).take j <+:
            (s.log n).take (s.commit n) :=
          List.prefix_of_prefix_length_le (List.take_prefix _ _) hown
            (by rw [hlen]; exact hle)
        exact absurd (hsub.trans (List.take_prefix _ _)) hnot
    have hpre : (s.log n).take (s.commit n) <+:
        (s.termLog (s.term n)).take j :=
      List.prefix_of_prefix_length_le hown (List.take_prefix _ _)
        (by rw [hlen]; exact hjn)
    refine ⟨?_, hjn⟩
    have htake := take_eq_of_pre hpre (Nat.le_of_eq hlen.symm)
    rw [htake, List.take_take, Nat.min_self]

theorem Inv.keeps_step [DecidableEq node] (h : Inv voters termOf s)
    (hstep : Step voters termOf n s s') (v : node) : KeepsCommit s s' v := by
  have hlen := h.commit.commit_le v
  have hsame : s'.log v = s.log v -> s.commit v ≤ s'.commit v ->
      KeepsCommit s s' v :=
    fun hlog hcommit => ⟨hcommit, by rw [hlog], by rw [hlog]; exact hlen⟩
  by_cases hvn : v = n
  · subst hvn
    cases hstep with
    | adopt | campaign | grant | elect | selfAck =>
        exact hsame rfl (Nat.le_refl _)
    | extend =>
        refine ⟨Nat.le_refl _, ?_, ?_⟩
        · simp only [Function.update_self]
          exact List.take_append_of_le_length hlen
        · simp only [Function.update_self, List.length_append]
          lia
    | accept hlead hne hj hL =>
        have hkeep := h.accept_keeps hlead hL
        refine ⟨Nat.le_refl _, ?_, ?_⟩
        · simp only [Function.update_self]
          exact hkeep.left
        · simp only [Function.update_self]
          exact hkeep.right
    | choose | learn =>
        exact hsame rfl (le_update_of_le (Nat.le_max_left _ _) v)
  · have he := hstep.elsewhere
    exact hsame (he.log v hvn) (Nat.le_of_eq (he.commit v hvn).symm)

theorem CommitInv.step [DecidableEq node] (h : Inv voters termOf s)
    (hstep : Step voters termOf n s s') : CommitInv voters termOf s' := by
  have hv := h.vote
  have hl := h.log
  have hc := h.commit
  have hg := Grows.of_step hv hl hstep
  have hkeep := h.keeps_step hstep
  cases hstep with
  | adopt hlt =>
      refine hc.of_keep hv hl hg hc.commit_le (fun _ => rfl) rfl id ?_
      intro v Q i hlead hch
      by_cases hvn : v = n
      · subst hvn
        simp only [Function.update_self] at hlead
        rcases hl.lead_cand hlead with ⟨C, hC, _⟩
        have hle := hv.cand_le hC
        lia
      · simp only [Function.update_of_ne hvn] at hlead hch
        exact hc.lead_commit hlead hch
  | campaign =>
      refine hc.of_keep hv hl hg hc.commit_le (fun _ => rfl) rfl id ?_
      intro v Q i hlead hch
      by_cases hvn : v = n
      · subst hvn
        simp only [Function.update_self] at hlead
        rcases hl.lead_cand hlead with ⟨C, hC, _⟩
        rw [hv.cand_fresh v] at hC
        cases hC
      · simp only [Function.update_of_ne hvn] at hlead hch
        exact hc.lead_commit hlead hch
  | grant =>
      exact hc.of_keep hv hl hg hc.commit_le (fun _ => rfl) rfl id
        hc.lead_commit
  | elect hcand hnone hQ hvotes =>
      refine hc.of_keep hv hl hg hc.commit_le (fun _ => rfl) rfl id ?_
      intro v R i hlead hch
      rcases (hc.chosen_ok hch).left with ⟨x, hx⟩
      simp only at hx
      by_cases ht : s.term v = s.term n
      · rw [ht, hnone] at hx
        cases hx
      · simp only [Function.update_of_ne ht] at hlead
        exact hc.lead_commit hlead hch
  | extend hlead hes =>
      exact hc.of_keep hv hl hg (fun v => (hkeep v).length)
        (fun v => (hkeep v).take) rfl id hc.lead_commit
  | accept hlead hne hj hL =>
      exact hc.of_keep hv hl hg (fun v => (hkeep v).length)
        (fun v => (hkeep v).take) rfl id hc.lead_commit
  | selfAck =>
      exact hc.of_keep hv hl hg hc.commit_le (fun _ => rfl) rfl id
        hc.lead_commit
  | choose hlead hown hR hacks =>
      rename_i Q R i
      have hlog := hl.lead_log hlead
      have hpos := hl.lead_pos hv hlead
      rcases getElem?_of_termAt termOf hown (by lia) with ⟨e, _, _, _, hlen⟩
      refine hc.raise hg ?_ ?_ (Or.inr ⟨rfl, rfl⟩) (Nat.le_refl _)
        (Nat.le_refl i) hlen (hlog ▸ List.take_prefix _ _)
      · intro t k hch
        rcases hch with hch | ⟨rfl, rfl⟩
        · exact hc.chosen_ok hch
        · exact ⟨⟨_, hlead⟩, by rw [← hlog]; exact hown, R, hR, hacks⟩
      · intro v Q' k hlead' hch
        rcases hch with hch | ⟨ht, rfl⟩
        · exact Nat.le_trans (hc.lead_commit hlead' hch)
            (le_update_of_le (Nat.le_max_left _ _) v)
        · have hvn : v = n := by
            rw [ht, hlead] at hlead'
            cases hlead'
            rfl
          rw [hvn, Function.update_self]
          exact Nat.le_max_right _ _
  | learn hk ht hik hlen hpre =>
      refine hc.raise hg hc.chosen_ok ?_ hk ht hik hlen hpre
      intro v Q j hlead hch
      exact Nat.le_trans (hc.lead_commit hlead hch)
        (le_update_of_le (Nat.le_max_left _ _) v)

/-!
## The invariant of every run
-/

variable [DecidableEq node]

theorem Inv.step (h : Inv voters termOf s)
    (hstep : Step voters termOf n s s') : Inv voters termOf s' where
  vote := h.vote.step hstep
  log := h.log.step h.vote hstep
  ack := h.ack.step h.vote h.log hstep
  commit := CommitInv.step h hstep

theorem Inv.steps (h : Inv voters termOf s)
    (hsteps : Steps voters termOf n s s') : Inv voters termOf s' := by
  induction hsteps with
  | refl => exact h
  | tail _ hstep ih => exact ih.step hstep

theorem Inv.keeps_steps (h : Inv voters termOf s)
    (hsteps : Steps voters termOf n s s') (v : node) : KeepsCommit s s' v := by
  induction hsteps with
  | refl =>
      exact ⟨Nat.le_refl _, rfl, h.commit.commit_le v⟩
  | tail hfirst hstep ih =>
      exact ih.trans ((h.steps hfirst).keeps_step hstep v)

theorem Inv.grows_steps (h : Inv voters termOf s)
    (hsteps : Steps voters termOf n s s') : Grows s s' := by
  induction hsteps with
  | refl => exact Grows.refl s
  | tail hfirst hstep ih =>
      have hmid := h.steps hfirst
      exact ih.trans (Grows.of_step hmid.vote hmid.log hstep)

end Commitment

/-!
## The initial state
-/

def State.init : State node entry where
  term := fun _ => 0
  log := fun _ => []
  commit := fun _ => 0
  cand := fun _ _ => none
  votes := fun _ _ _ => False
  lead := fun _ => none
  termLog := fun _ => []
  acks := fun _ _ _ => False
  chosen := fun _ _ => False

theorem Inv.init {voters : Finset node} {termOf : entry -> Nat} :
    Inv voters termOf (State.init : State node entry) where
  vote :=
    { vote_le := False.elim
      vote_unique := False.elim
      vote_cand := False.elim
      cand_le := fun h => by cases h
      cand_pos := fun h => by cases h }
  log :=
    { cand_lt := fun h => by cases h
      cand_fits := fun h => by cases h
      cand_log := fun h => by cases h
      lead_cand := fun h => by cases h
      lead_quorum := fun h => by cases h
      lead_log := fun h => by cases h
      log_le := fun h => by cases h
      log_fits := fun _ k e h => by simp [State.init] at h }
  ack :=
    { ack_le := False.elim
      ack_lead := False.elim
      ack_kept := False.elim
      vote_safe := False.elim }
  commit :=
    { chosen_ok := False.elim
      commit_le := fun _ => Nat.le_refl _
      commit_ok := fun _ => Or.inl rfl
      lead_commit := fun h => by cases h }

end ReplicatedLog
end Lib
end Basalt
