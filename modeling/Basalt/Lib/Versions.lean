import Mathlib.Data.List.MinMax

/-!
# Versions of keys

A history is a list of versions, each of a key and with a time; a version may say
that its key is gone.  A store shows a history if the latest version of every key
can be read from it, whichever older versions it still holds.
-/

namespace Basalt
namespace Lib

section

variable {V K A : Type} (key : V -> K) (time : V -> Nat) (gone : V -> Prop) (value : V -> A)

def Latest (l : List V) (p : V) : Prop :=
  p ∈ l ∧ forall q, q ∈ l -> key q = key p -> time q ≤ time p

def Bound (l : List V) (k : K) (x : A) : Prop :=
  exists p, Latest key time l p ∧ key p = k ∧ ¬ gone p ∧ value p = x

def Later (new l : List V) : Prop :=
  forall p, p ∈ new -> forall q, q ∈ l -> key q = key p -> time q < time p

/-- The latest versions of the history are stored, but of a key that is gone nothing
needs to be left. -/
structure Shows (h s : List V) : Prop where
  latest : forall p, Latest key time h p ->
    Latest key time s p ∨ (gone p ∧ forall q, q ∈ s -> key q ≠ key p)
  older : forall p, Latest key time s p -> Latest key time h p

variable {key time gone value} {h h' s s' new l l' : List V} {p : V} {k : K} {x : A}

theorem Latest.congr (hmem : forall q, q ∈ l' <-> q ∈ l) (hp : Latest key time l p) :
    Latest key time l' p :=
  ⟨(hmem p).mpr hp.left, fun q hq => hp.right q ((hmem q).mp hq)⟩

theorem exists_latest [DecidableEq K] (hp : p ∈ l) :
    exists m, Latest key time l m ∧ key m = key p := by
  cases hmax : (l.filter fun q => key q = key p).argmax time with
  | none =>
      have hnil := List.argmax_eq_none.mp hmax
      have hmem : p ∈ l.filter fun q => key q = key p :=
        List.mem_filter.mpr ⟨hp, decide_eq_true rfl⟩
      rw [hnil] at hmem
      cases hmem
  | some m =>
      rcases List.mem_filter.mp (List.argmax_mem hmax) with ⟨hm, hkey⟩
      have hkey := of_decide_eq_true hkey
      refine ⟨m, ⟨hm, fun q hq hqkey => ?_⟩, hkey⟩
      apply List.le_of_mem_argmax _ hmax
      exact List.mem_filter.mpr ⟨hq, decide_eq_true (hqkey.trans hkey)⟩

theorem Latest.append_new (hlater : Later key time new l) (hp : Latest key time new p) :
    Latest key time (l ++ new) p := by
  refine ⟨List.mem_append_right _ hp.left, fun q hq hkey => ?_⟩
  rcases List.mem_append.mp hq with hq | hq
  · exact Nat.le_of_lt (hlater p hp.left q hq hkey)
  · exact hp.right q hq hkey

theorem Latest.append_old (hp : Latest key time l p) (hnew : forall q, q ∈ new -> key q ≠ key p) :
    Latest key time (l ++ new) p := by
  refine ⟨List.mem_append_left _ hp.left, fun q hq hkey => ?_⟩
  rcases List.mem_append.mp hq with hq | hq
  · exact hp.right q hq hkey
  · exact absurd hkey (hnew q hq)

theorem Latest.of_append (hlater : Later key time new l) (hp : Latest key time (l ++ new) p) :
    Latest key time new p ∨
      (Latest key time l p ∧ forall q, q ∈ new -> key q ≠ key p) := by
  rcases List.mem_append.mp hp.left with hmem | hmem
  · right
    refine ⟨⟨hmem, fun q hq => hp.right q (List.mem_append_left _ hq)⟩, ?_⟩
    intro q hq hkey
    have hlt := hlater q hq p hmem hkey.symm
    have hle := hp.right q (List.mem_append_right _ hq) hkey
    exact Nat.not_lt_of_le hle hlt
  · left
    exact ⟨hmem, fun q hq => hp.right q (List.mem_append_right _ hq)⟩

namespace Shows

theorem refl (l : List V) : Shows key time gone l l where
  latest := fun _ hp => Or.inl hp
  older := fun _ hp => hp

theorem congr (hshows : Shows key time gone h s) (hh : forall q, q ∈ h' <-> q ∈ h)
    (hs : forall q, q ∈ s' <-> q ∈ s) : Shows key time gone h' s' where
  latest := by
    intro p hp
    rcases hshows.latest p (hp.congr fun q => (hh q).symm) with hp | ⟨hgone, hnone⟩
    · exact Or.inl (hp.congr hs)
    · exact Or.inr ⟨hgone, fun q hq => hnone q ((hs q).mp hq)⟩
  older := fun p hp => (hshows.older p (hp.congr fun q => (hs q).symm)).congr hh

/-- What is newer than the history and the store is added to both. -/
theorem append (hshows : Shows key time gone h s) (hh : Later key time new h)
    (hs : Later key time new s) : Shows key time gone (h ++ new) (s ++ new) where
  latest := by
    intro p hp
    rcases Latest.of_append hh hp with hp | ⟨hp, hnew⟩
    · exact Or.inl (hp.append_new hs)
    · rcases hshows.latest p hp with hp | ⟨hgone, hnone⟩
      · exact Or.inl (hp.append_old hnew)
      · refine Or.inr ⟨hgone, fun q hq => ?_⟩
        rcases List.mem_append.mp hq with hq | hq
        · exact hnone q hq
        · exact hnew q hq
  older := by
    intro p hp
    rcases Latest.of_append hs hp with hp | ⟨hp, hnew⟩
    · exact hp.append_new hh
    · exact (hshows.older p hp).append_old hnew

theorem trans [DecidableEq K] (hshows : Shows key time gone h s)
    (hshows' : Shows key time gone s s') : Shows key time gone h s' where
  latest := by
    intro p hp
    rcases hshows.latest p hp with hp | ⟨hgone, hnone⟩
    · exact hshows'.latest p hp
    · refine Or.inr ⟨hgone, fun q hq hkey => ?_⟩
      have hlatest : exists m, Latest key time s' m ∧ key m = key q := exists_latest hq
      rcases hlatest with ⟨m, hm, hmkey⟩
      exact hnone m (hshows'.older m hm).left (hmkey.trans hkey)
  older := fun p hp => hshows.older p (hshows'.older p hp)

theorem bound_iff (hshows : Shows key time gone h s) :
    Bound key time gone value h k x <-> Bound key time gone value s k x := by
  constructor
  · rintro ⟨p, hp, hkey, hgone, hvalue⟩
    rcases hshows.latest p hp with hp | ⟨hgone', _⟩
    · exact ⟨p, hp, hkey, hgone, hvalue⟩
    · exact absurd hgone' hgone
  · rintro ⟨p, hp, hkey, hgone, hvalue⟩
    exact ⟨p, hshows.older p hp, hkey, hgone, hvalue⟩

end Shows

theorem bound_congr (hmem : forall q, q ∈ l' <-> q ∈ l) :
    Bound key time gone value l' k x <-> Bound key time gone value l k x := by
  constructor
  · rintro ⟨p, hp, hrest⟩
    exact ⟨p, hp.congr fun q => (hmem q).symm, hrest⟩
  · rintro ⟨p, hp, hrest⟩
    exact ⟨p, hp.congr hmem, hrest⟩

theorem bound_snoc (hlater : Later key time [p] l) :
    Bound key time gone value (l ++ [p]) k x <->
      (key p = k ∧ ¬ gone p ∧ value p = x) ∨ (key p ≠ k ∧ Bound key time gone value l k x) := by
  have hself : Latest key time [p] p :=
    ⟨List.mem_cons_self, fun q hq _ => by rw [List.mem_singleton.mp hq]⟩
  constructor
  · rintro ⟨q, hq, hkey, hgone, hvalue⟩
    rcases Latest.of_append hlater hq with hq | ⟨hq, hnew⟩
    · cases List.mem_singleton.mp hq.left
      exact Or.inl ⟨hkey, hgone, hvalue⟩
    · refine Or.inr ⟨fun hp => ?_, q, hq, hkey, hgone, hvalue⟩
      exact hnew p List.mem_cons_self (hp.trans hkey.symm)
  · rintro (⟨hkey, hgone, hvalue⟩ | ⟨hne, q, hq, hkey, hgone, hvalue⟩)
    · exact ⟨p, hself.append_new hlater, hkey, hgone, hvalue⟩
    · refine ⟨q, hq.append_old fun r hr => ?_, hkey, hgone, hvalue⟩
      rw [List.mem_singleton.mp hr, hkey]
      exact hne

end

end Lib
end Basalt
