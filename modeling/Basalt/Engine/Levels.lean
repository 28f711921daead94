import Basalt.Engine.Merge
import Basalt.Manifest.Version

/-!
# The levels of tables

A version names the tables of every level; their contents are the versions of
the user keys.  From level 1 on no user key is in two tables of one level, and
the versions of a user key are newer in shallower levels, and in the younger
tables of level 0.
-/

namespace Basalt
namespace Engine

open Lib Base Std Manifest

namespace Pair

def userKey (p : Pair) : Bytes :=
  Base.userKey p.key

def seq (p : Pair) : Nat :=
  keySeq p.key

end Pair

def entries (v : Version) (t : Sources) : List Pair :=
  v.all.flatMap fun f => t f.fileNum

def Newest (v : Version) (t : Sources) (p : Pair) : Prop :=
  p ∈ entries v t ∧
    forall q, q ∈ entries v t -> q.userKey = p.userKey -> trailer q.key ≤ trailer p.key

instance (v : Version) (t : Sources) (p : Pair) : Decidable (Newest v t p) :=
  inferInstanceAs (Decidable (_ ∧ _))

def Apart (f f' : FileMeta) : Prop :=
  compare (userKey f.largest) (userKey f'.smallest) = .lt ∨
    compare (userKey f'.largest) (userKey f.smallest) = .lt

instance (f f' : FileMeta) : Decidable (Apart f f') :=
  inferInstanceAs (Decidable (_ ∨ _))

/-- The first table is asked before the second one. -/
def Shallower (f f' : FileMeta) : Prop :=
  f.level < f'.level ∨ (f.level = 0 ∧ f'.level = 0 ∧ f'.fileNum < f.fileNum)

instance (f f' : FileMeta) : Decidable (Shallower f f') :=
  inferInstanceAs (Decidable (_ ∨ _))

/-- The table holds valid keys in ascending order, and its bounds are the first and
the last of them. -/
structure Holds (t : Sources) (f : FileMeta) : Prop where
  ascending : Ascending Pair.compare (t f.fileNum)
  valid : forall p, p ∈ t f.fileNum -> exists ik, decodeInternalKey p.key = .ok ik
  smallest : (t f.fileNum).head?.map Pair.key = some f.smallest
  largest : (t f.fileNum).getLast?.map Pair.key = some f.largest

structure Layered (v : Version) (t : Sources) : Prop where
  wellFormed : v.WellFormed
  tables : forall f, f ∈ v.all -> Holds t f
  apart : forall f f', f ∈ v.all -> f' ∈ v.all -> f.level = f'.level -> f.level ≠ 0 ->
    f.fileNum ≠ f'.fileNum -> Apart f f'
  recency : forall f f', f ∈ v.all -> f' ∈ v.all -> Shallower f f' ->
    forall p q, p ∈ t f.fileNum -> q ∈ t f'.fileNum -> p.userKey = q.userKey -> q.seq < p.seq

/-!
## The bounds of a table
-/

variable {t : Sources} {f f' : FileMeta} {p q : Pair} {v : Version}

theorem isLE_head {l : List Pair} (h : Ascending Pair.compare l) (hhead : l.head? = some q)
    (hp : p ∈ l) : (q.compare p).isLE = true := by
  cases l with
  | nil => cases hp
  | cons a l =>
      cases hhead
      rcases List.mem_cons.mp hp with rfl | hp
      · have hself : p.compare p = .eq := cmp_self p
        rw [hself]
        rfl
      · rw [(List.pairwise_cons.mp h).left p hp]
        rfl

theorem isLE_getLast {l : List Pair} (h : Ascending Pair.compare l)
    (hlast : l.getLast? = some q) (hp : p ∈ l) : (p.compare q).isLE = true := by
  rcases List.getLast?_eq_some_iff.mp hlast with ⟨init, rfl⟩
  rcases List.mem_append.mp hp with hp | hp
  · rw [(List.pairwise_append.mp h).right.right p hp q List.mem_cons_self]
    rfl
  · rw [List.mem_singleton.mp hp]
    have hself : q.compare q = .eq := cmp_self q
    rw [hself]
    rfl

namespace Holds

theorem smallest_isLE (h : Holds t f) (hp : p ∈ t f.fileNum) :
    (compare (userKey f.smallest) p.userKey).isLE = true := by
  rcases Option.map_eq_some_iff.mp h.smallest with ⟨q, hq, hkey⟩
  have hle := userKey_isLE (isLE_head h.ascending hq hp)
  rw [hkey] at hle
  exact hle

theorem isLE_largest (h : Holds t f) (hp : p ∈ t f.fileNum) :
    (compare p.userKey (userKey f.largest)).isLE = true := by
  rcases Option.map_eq_some_iff.mp h.largest with ⟨q, hq, hkey⟩
  have hle := userKey_isLE (isLE_getLast h.ascending hq hp)
  rw [hkey] at hle
  exact hle

theorem exists_mem (h : Holds t f) : exists p, p ∈ t f.fileNum := by
  rcases Option.map_eq_some_iff.mp h.smallest with ⟨q, hq, _⟩
  exact ⟨q, List.mem_of_mem_head? hq⟩

theorem bounds_isLE (h : Holds t f) :
    (compare (userKey f.smallest) (userKey f.largest)).isLE = true := by
  rcases h.exists_mem with ⟨p, hp⟩
  exact TransCmp.isLE_trans (h.smallest_isLE hp) (h.isLE_largest hp)

theorem userKey_ne (h : Holds t f) (h' : Holds t f') (hapart : Apart f f')
    (hp : p ∈ t f.fileNum) (hq : q ∈ t f'.fileNum) : p.userKey ≠ q.userKey := by
  intro heq
  have hself : compare p.userKey p.userKey = .eq := cmp_self _
  rcases hapart with hlt | hlt
  · have hbad := TransCmp.lt_of_isLE_of_lt (h.isLE_largest hp)
      (TransCmp.lt_of_lt_of_isLE hlt (h'.smallest_isLE hq))
    rw [← heq, hself] at hbad
    cases hbad
  · have hbad := TransCmp.lt_of_isLE_of_lt (h'.isLE_largest hq)
      (TransCmp.lt_of_lt_of_isLE hlt (h.smallest_isLE hp))
    rw [← heq, hself] at hbad
    cases hbad

end Holds

theorem mem_entries : p ∈ entries v t <-> exists f, f ∈ v.all ∧ p ∈ t f.fileNum :=
  List.mem_flatMap

end Engine
end Basalt
