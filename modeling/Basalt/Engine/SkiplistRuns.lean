import Basalt.Engine.SkiplistInsert

/-!
# Memtables

A memtable is filled by a sequence of insertions.  Whatever heights are drawn, it
is a sorted set of what was added, and a read finds the newest version that it
may see.
-/

namespace Basalt
namespace Engine

open Lib Base Std Wal

namespace Skiplist

/-!
## Sequences of insertions
-/

structure Addition where
  userKey : Bytes
  seq : Nat
  kind : Kind
  value : Bytes
  height : Nat
deriving DecidableEq, Repr

namespace Addition

def key (a : Addition) : Bytes :=
  appendInternalKey a.userKey a.seq a.kind

def pair (a : Addition) : Pair where
  key := a.key
  value := a.value

structure Ok (a : Addition) : Prop where
  seq : a.seq ≤ maxSeq
  pos : 1 ≤ a.height
  le : a.height ≤ maxHeight

theorem trailerLen_le_key (a : Addition) : trailerLen ≤ a.key.length := by
  unfold key appendInternalKey
  rw [List.length_append, putLE_length]
  exact Nat.le_add_left _ _

end Addition

def addOne (m : Skiplist) (a : Addition) : Except SkipFault Skiplist :=
  m.add a.userKey a.seq a.kind a.value a.height

structure Holds (m : Skiplist) (ids : List Nat) (adds : List Addition) : Prop where
  ordered : m.Ordered ids
  perm : (ids.map m.pairAt).Perm (adds.map Addition.pair)

variable {m : Skiplist} {ids lower upper : List Nat} {key : Bytes}

namespace Holds

variable {adds : List Addition} {a : Addition}

theorem exists_addition (h : m.Holds ids adds) {i : Nat} (hi : i ∈ ids) :
    exists a, a ∈ adds ∧ m.pairAt i = a.pair := by
  rcases List.mem_map.mp (h.perm.subset (List.mem_map_of_mem hi)) with ⟨a, ha, heq⟩
  exact ⟨a, ha, heq.symm⟩

theorem exists_node (h : m.Holds ids adds) (ha : a ∈ adds) :
    exists i, i ∈ ids ∧ m.pairAt i = a.pair :=
  List.mem_map.mp (h.perm.symm.subset (List.mem_map_of_mem ha))

theorem hasKey_iff (h : m.Holds ids adds) (hcut : m.CutAt a.key ids lower upper) :
    m.hasKey a.key upper.head? = true <-> a.key ∈ adds.map Addition.key := by
  constructor
  · intro hthere
    cases upper with
    | nil => cases hthere
    | cons first upper =>
        have hmem : first ∈ ids := by
          rw [hcut.eq]
          exact List.mem_append_right lower List.mem_cons_self
        rcases h.exists_addition hmem with ⟨b, hb, hpair⟩
        have heq : compareKeys (m.pairAt first).key a.key = .eq := of_decide_eq_true hthere
        rw [hpair] at heq
        have hsame : b.key = a.key :=
          eq_of_compareKeys b.trailerLen_le_key a.trailerLen_le_key heq
        rw [← hsame]
        exact List.mem_map_of_mem hb
  · intro hmem
    rcases List.mem_map.mp hmem with ⟨b, hb, hkey⟩
    rcases h.exists_node hb with ⟨i, hi, hpair⟩
    apply h.ordered.hasKey_of_mem hcut hi
    rw [hpair]
    show compareKeys b.key a.key = .eq
    rw [hkey]
    exact ReflCmp.compare_self

theorem addOne_new (h : m.Holds ids adds) (ha : a.Ok) (hnew : a.key ∉ adds.map Addition.key) :
    exists m' ids', m.addOne a = .ok m' ∧ m'.Holds ids' (adds ++ [a]) := by
  rcases h.ordered.exists_cut a.key with ⟨lower, upper, hcut⟩
  have hfresh : m.hasKey a.key upper.head? = false :=
    Bool.eq_false_of_not_eq_true (mt (h.hasKey_iff hcut).mp hnew)
  rcases add_spec h.ordered a.value hcut ha.seq ha.pos ha.le hfresh with
    ⟨m', hadd, hins, hord, _⟩
  refine ⟨m', _, hadd, hord, ?_⟩
  have hperm := h.perm
  rw [hcut.eq, List.map_append] at hperm
  rw [hins.map_pairAt, List.map_append]
  exact List.perm_middle.trans ((hperm.cons a.pair).trans (List.perm_append_singleton _ _).symm)

theorem addOne_there (h : m.Holds ids adds) (ha : a.Ok) (hthere : a.key ∈ adds.map Addition.key) :
    m.addOne a = .error (.duplicateKey a.key) := by
  rcases h.ordered.exists_cut a.key with ⟨lower, upper, hcut⟩
  exact add_duplicate h.ordered hcut ha.seq ((h.hasKey_iff hcut).mpr hthere)

theorem foldlM_addOne (h : m.Holds ids adds) {more : List Addition}
    (hok : forall b, b ∈ more -> b.Ok)
    (hdistinct : ((adds ++ more).map Addition.key).Nodup) :
    exists m' ids', more.foldlM addOne m = .ok m' ∧ m'.Holds ids' (adds ++ more) := by
  induction more generalizing m ids adds with
  | nil =>
      rw [List.append_nil]
      exact ⟨m, ids, rfl, h⟩
  | cons b more ih =>
      have hnew : b.key ∉ adds.map Addition.key := by
        rw [List.map_append, List.map_cons] at hdistinct
        intro hmem
        exact List.disjoint_of_nodup_append hdistinct hmem List.mem_cons_self
      rcases h.addOne_new (hok b List.mem_cons_self) hnew with ⟨mid, idsMid, hmid, hholds⟩
      have hassoc : adds ++ [b] ++ more = adds ++ b :: more := by
        rw [List.append_assoc]
        rfl
      rcases ih hholds (fun c hc => hok c (List.mem_cons_of_mem b hc))
        (by rw [hassoc]; exact hdistinct) with ⟨m', ids', hm', hfinal⟩
      rw [hassoc] at hfinal
      exact ⟨m', ids', bind_eq_ok.mpr ⟨mid, hmid, hm'⟩, hfinal⟩

end Holds

theorem CutAt.head?_eq (hcut : m.CutAt key ids lower upper) :
    upper.head? = ids.find? fun i => !m.before key (some i) := by
  have hlower : (lower.find? fun i => !m.before key (some i)) = none := by
    apply List.find?_eq_none.mpr
    intro i hi
    rw [hcut.lower i hi]
    exact Bool.false_ne_true
  rw [hcut.eq, List.find?_append, hlower]
  cases upper with
  | nil => rfl
  | cons i upper =>
      rw [List.find?_cons_of_pos (by rw [hcut.upper i List.mem_cons_self]; rfl)]
      rfl

/-!
## Reads
-/

/-- The newest version of a key that a reader at `seq` may see, if there is
one. -/
def Newest (adds : List Addition) (uk : Bytes) (seq : Nat) : Option (Bytes × Kind) -> Prop
  | none => forall a, a ∈ adds -> a.userKey = uk -> seq < a.seq
  | some r => exists a, a ∈ adds ∧ a.userKey = uk ∧ a.seq ≤ seq ∧ r = (a.value, a.kind) ∧
      forall b, b ∈ adds -> b.userKey = uk -> b.seq ≤ seq -> b.seq ≤ a.seq

theorem CutAt.first_isLE {first : Nat} (hord : m.Ordered ids)
    (hcut : m.CutAt key ids lower (first :: upper)) {i : Nat} (hi : i ∈ first :: upper) :
    (m.byKey first i).isLE = true := by
  have hasc : Ascending m.byKey (first :: upper) := by
    apply hord.ascending.sublist
    rw [hcut.eq]
    exact List.sublist_append_right lower _
  rcases List.mem_cons.mp hi with rfl | hi
  · have hself : m.byKey i i = .eq := cmp_self i
    rw [hself]
    rfl
  · rw [(List.pairwise_cons.mp hasc).left i hi]
    rfl

theorem CutAt.key_isLE (hcut : m.CutAt key ids lower upper) {i : Nat} (hi : i ∈ upper) :
    (compareKeys key (m.pairAt i).key).isLE = true := by
  apply isLE_of_not_isLT
  have hnot : (compareKeys (m.pairAt i).key key).isLT = false := hcut.upper i hi
  rw [hnot]
  exact Bool.false_ne_true

namespace Holds

variable {adds : List Addition} {a : Addition}

theorem trailer_key (ha : a.Ok) : trailer a.key = a.seq * 256 + a.kind.toByte.toNat :=
  trailer_appendInternalKey a.userKey ha.seq a.kind

theorem userKey_key (a : Addition) : userKey a.key = a.userKey :=
  userKey_appendInternalKey a.userKey a.seq a.kind

theorem toByte_le_one (kind : Kind) : kind.toByte.toNat ≤ 1 := by
  cases kind with
  | delete => exact Nat.zero_le 1
  | put => exact Nat.le_refl 1

theorem mem_upper {uk : Bytes} {seq : Nat} (h : m.Holds ids adds) (hseq : seq ≤ maxSeq)
    (hcut : m.CutAt (appendInternalKey uk seq .put) ids lower upper) (ha : a ∈ adds) (hok : a.Ok)
    (hkey : a.userKey = uk) (hle : a.seq ≤ seq) : exists i, i ∈ upper ∧ m.pairAt i = a.pair := by
  rcases h.exists_node ha with ⟨i, hi, hpair⟩
  refine ⟨i, ?_, hpair⟩
  rw [hcut.eq] at hi
  rcases List.mem_append.mp hi with hi | hi
  · have hlt : compareKeys (m.pairAt i).key (appendInternalKey uk seq .put) = .lt :=
      Ordering.isLT_iff_eq_lt.mp (hcut.lower i hi)
    have huser : userKey (appendInternalKey uk seq .put) = userKey a.key := by
      rw [userKey_appendInternalKey, userKey_key, hkey]
    have htrailer : trailer a.key ≤ trailer (appendInternalKey uk seq .put) := by
      have hone := toByte_le_one a.kind
      have hput : Kind.put.toByte.toNat = 1 := rfl
      rw [trailer_key hok, trailer_appendInternalKey uk hseq, hput]
      lia
    have hback := isLE_of_trailer_le huser htrailer
    rw [hpair] at hlt
    have hgt : compareKeys (appendInternalKey uk seq .put) a.key = .gt :=
      OrientedCmp.gt_of_lt hlt
    rw [hgt] at hback
    cases hback
  · exact hi

theorem get_spec (h : m.Holds ids adds) (hok : forall b, b ∈ adds -> b.Ok) (uk : Bytes) {seq : Nat}
    (hseq : seq ≤ maxSeq) : exists r, m.get uk seq = .ok r ∧ Newest adds uk seq r := by
  rcases h.ordered.exists_cut (appendInternalKey uk seq .put) with ⟨lower, upper, hcut⟩
  rcases findGE_spec h.ordered hcut with ⟨preds, hfind, _⟩
  unfold get
  rw [if_neg (Nat.not_lt.mpr hseq), bind_of_ok hfind]
  cases upper with
  | nil =>
      refine ⟨none, rfl, fun b hb hkey => ?_⟩
      by_contra hle
      rcases h.mem_upper hseq hcut hb (hok b hb) hkey (Nat.le_of_not_lt hle) with ⟨i, hi, _⟩
      cases hi
  | cons first upper =>
      have hmem : first ∈ ids := by
        rw [hcut.eq]
        exact List.mem_append_right lower List.mem_cons_self
      rcases h.exists_addition hmem with ⟨a, ha, hpair⟩
      have hdecode : (decodeInternalKey (m.pairAt first).key).mapError SkipFault.corruptKey =
          .ok { userKey := a.userKey, seq := a.seq, kind := a.kind } := by
        rw [hpair]
        exact mapError_eq_ok.mpr (decode_appendInternalKey a.userKey (hok a ha).seq a.kind)
      have hfirst := hcut.key_isLE List.mem_cons_self
      rw [hpair] at hfirst
      -- The first node is no later than any version that may be seen.
      have hleast : forall b, b ∈ adds -> b.userKey = uk -> b.seq ≤ seq ->
          (compareKeys a.key b.key).isLE = true := by
        intro b hb hkey hle
        rcases h.mem_upper hseq hcut hb (hok b hb) hkey hle with ⟨i, hi, hi'⟩
        have hcmp := hcut.first_isLE h.ordered hi
        unfold byKey at hcmp
        rw [hpair, hi'] at hcmp
        exact hcmp
      show exists r, ((decodeInternalKey (m.pairAt first).key).mapError SkipFault.corruptKey >>=
        fun ik => if ik.userKey ≠ uk then Except.ok none
          else Except.ok (some ((m.pairAt first).value, ik.kind))) = .ok r ∧ _
      rw [bind_of_ok hdecode]
      dsimp only
      by_cases hkey : a.userKey = uk
      · rw [if_neg (not_not.mpr hkey), hpair]
        have huser : userKey (appendInternalKey uk seq .put) = userKey a.key := by
          rw [userKey_appendInternalKey, userKey_key, hkey]
        refine ⟨_, rfl, a, ha, hkey, ?_, rfl, fun b hb hbkey hle => ?_⟩
        · have htrailer := trailer_le huser hfirst
          have hput : Kind.put.toByte.toNat = 1 := rfl
          rw [trailer_key (hok a ha), trailer_appendInternalKey uk hseq, hput] at htrailer
          lia
        · have hsame : userKey a.key = userKey b.key := by
            rw [userKey_key, userKey_key, hkey, hbkey]
          have htrailer := trailer_le hsame (hleast b hb hbkey hle)
          have hone := toByte_le_one a.kind
          rw [trailer_key (hok a ha), trailer_key (hok b hb)] at htrailer
          lia
      · rw [if_pos hkey]
        refine ⟨none, rfl, fun b hb hbkey => ?_⟩
        by_contra hle
        have hge := userKey_isLE (hleast b hb hbkey (Nat.le_of_not_lt hle))
        have hle' := userKey_isLE hfirst
        rw [userKey_key, userKey_key, hbkey] at hge
        rw [userKey_appendInternalKey] at hle'
        have heq : compare a.userKey uk = .eq :=
          OrientedCmp.isLE_antisymm hge (show (compare uk a.userKey).isLE = true by
            rw [← userKey_key a]
            exact hle')
        exact hkey (LawfulEqCmp.eq_of_compare heq)

end Holds

/-- A skiplist that was filled with distinct keys, whatever the heights: every
level is an ascending part of the one below, the lowest has what was added,
searches and reads find what they are to find, and no key enters twice. -/
theorem skiplist_sortedSet (adds : List Addition) (hok : forall a, a ∈ adds -> a.Ok)
    (hdistinct : (adds.map Addition.key).Nodup) :
    exists (m : Skiplist) (levels : Nat -> List Nat),
      adds.foldlM addOne {} = .ok m ∧ 1 ≤ m.height ∧ m.height ≤ maxHeight ∧
      (forall level, level < maxHeight ->
        Chain (m.load level) none (levels level) ∧ Ascending m.byKey (levels level)) ∧
      (forall level, (levels (level + 1)).Sublist (levels level)) ∧
      ((levels 0).map m.pairAt).Perm (adds.map Addition.pair) ∧
      (forall key level, level < maxHeight -> exists preds,
        m.findFrom key level =
          .ok ((levels 0).find? fun i => !(compareKeys (m.pairAt i).key key).isLT, preds)) ∧
      (forall uk seq, seq ≤ maxSeq -> exists r, m.get uk seq = .ok r ∧ Newest adds uk seq r) ∧
      forall a : Addition, a.Ok ->
        (a.key ∈ adds.map Addition.key -> m.addOne a = .error (.duplicateKey a.key)) ∧
        (a.key ∉ adds.map Addition.key -> exists m', m.addOne a = .ok m') := by
  have hempty : ({} : Skiplist).Holds [] [] := ⟨ordered_new, List.Perm.nil⟩
  rcases hempty.foldlM_addOne hok hdistinct with ⟨m, ids, hm, hholds⟩
  rw [List.nil_append] at hholds
  have hord := hholds.ordered
  have hzero : m.onLevel 0 ids = ids := onLevel_zero hord (List.Subset.refl ids)
  refine ⟨m, fun level => m.onLevel level ids, hm, hord.heightPos, hord.heightLe, ?_, ?_, ?_, ?_,
    ?_, ?_⟩
  · intro level hlevel
    exact ⟨hord.chain level hlevel, hord.ascending.filter _⟩
  · intro level
    apply List.monotone_filter_right
    intro i hi
    exact decide_eq_true (Nat.lt_of_succ_lt (of_decide_eq_true hi))
  · dsimp only
    rw [hzero]
    exact hholds.perm
  · intro key level hlevel
    rcases hord.exists_cut key with ⟨lower, upper, hcut⟩
    rcases findFrom_spec hord hcut hlevel with ⟨preds, hfind, _⟩
    refine ⟨preds, ?_⟩
    dsimp only
    rw [hfind, hcut.head?_eq, hzero]
    rfl
  · intro uk seq hseq
    exact hholds.get_spec hok uk hseq
  · intro a ha
    constructor
    · exact hholds.addOne_there ha
    · intro hnew
      rcases hholds.addOne_new ha hnew with ⟨m', _, hm', _⟩
      exact ⟨m', hm'⟩

def threeVersions : List Addition :=
  [{ userKey := [98], seq := 1, kind := .put, value := [7], height := 2 },
   { userKey := [97], seq := 2, kind := .put, value := [8], height := 1 },
   { userKey := [98], seq := 3, kind := .delete, value := [], height := 12 }]

theorem skiplist_sortedSet_threeVersions :
    exists m : Skiplist, threeVersions.foldlM addOne {} = .ok m ∧
      m.get [98] 2 = .ok (some ([7], .put)) := by
  have hok : forall a, a ∈ threeVersions -> a.Ok := by
    intro a ha
    simp only [threeVersions, List.mem_cons, List.not_mem_nil, or_false] at ha
    rcases ha with rfl | rfl | rfl
    · exact ⟨by decide, by decide, by decide⟩
    · exact ⟨by decide, by decide, by decide⟩
    · exact ⟨by decide, by decide, by decide⟩
  rcases skiplist_sortedSet threeVersions hok (by decide) with
    ⟨m, _, hm, _, _, _, _, _, _, hget, _⟩
  rcases hget [98] 2 (by decide) with ⟨r, hr, hnewest⟩
  cases r with
  | none =>
      have hlt := hnewest { userKey := [98], seq := 1, kind := .put, value := [7], height := 2 }
        (by decide) rfl
      exact absurd hlt (by decide)
  | some r =>
      rcases hnewest with ⟨a, ha, hkey, hle, rfl, _⟩
      simp only [threeVersions, List.mem_cons, List.not_mem_nil, or_false] at ha
      rcases ha with rfl | rfl | rfl
      · exact ⟨m, hm, hr⟩
      · exact absurd hkey (by decide)
      · exact absurd hle (by decide)

end Skiplist

end Engine
end Basalt
