import Mathlib.Data.List.Pairwise
import Basalt.Engine.CompactionInputs
import Basalt.Lib.Keyed

/-!
# The edit of a compaction

The outputs hold the survivors of the merge, cut into tables.  The edit that
swaps the inputs for them is accepted, also when tables were flushed to level 0
in the meantime.
-/

namespace Basalt
namespace Engine

open Lib Base Std Manifest Compaction

section

variable {v v₁ : Version} {t : Sources} {c : Compaction} {level output : Level}
  {f f' : FileMeta} {p q : Pair} {merged : List Pair} {outs : List Output} {o o' : Output}
  {alloc : Nat -> Nat}

/-!
## The outputs
-/

structure Result (c : Compaction) (t : Sources) (alloc : Nat -> Nat) (merged : List Pair)
    (outs : List Output) : Prop where
  perm : merged.Perm ((c.inputs.map FileMeta.fileNum).flatMap t)
  ascending : Ascending Pair.compare merged
  pairs : outs.flatMap Output.pairs = c.survivors none merged
  nonempty : forall o, o ∈ outs -> o.pairs ≠ []
  numbers : outs.map Output.fileNum = (List.range outs.length).map alloc

theorem merge_spec {ε : Type} (h : Chosen v c level output) (hv : Layered v t)
    (faults : Nat -> Faults ε) :
    ((c.merge t faults).2.err = none ∧
      (c.merge t faults).1.Perm ((c.inputs.map FileMeta.fileNum).flatMap t) ∧
      (c.merge t faults).1.Pairwise fun x y => (x.compare y).isLE = true) ∨
    exists e i s, (c.merge t faults).2.err = some e ∧ faults i s = some e := by
  have hw : forall s, s ∈ c.inputs.map FileMeta.fileNum -> Ascending Pair.compare (t s) := by
    intro s hs
    rcases List.mem_map.mp hs with ⟨f, hf, rfl⟩
    exact (hv.tables f (h.mem_all hf)).ascending
  have hup : Upward Pair.compare fun _ => true := fun _ _ _ _ => rfl
  let m : MergingIter ε := { children := c.inputs.map FileMeta.fileNum }
  rcases @MergingIter.reposition_spec ε m t (faults 0) _ hw hup rfl with
    ⟨herr, hplaced, hpending⟩ | ⟨e, s, herr, _, hs⟩
  · simp only [List.filter_true] at hpending
    have hdrain := @MergingIter.drain_spec ε _ t faults _ 1 hplaced herr
      (Nat.le_of_eq (congrArg List.length hpending))
    rw [hpending] at hdrain
    exact hdrain
  · exact Or.inr ⟨e, 0, s, MergingIter.err_drain herr, hs⟩

theorem outputs_spec {ε : Type} (h : Chosen v c level output) (hv : Layered v t)
    (opts : Options) (estimatedSize : List Pair -> Nat) (alloc : Nat -> Nat)
    (faults : Nat -> Faults ε) :
    (exists merged outs, c.outputs opts estimatedSize alloc t faults = .ok outs ∧
      Result c t alloc merged outs) ∨
    exists e i s e', c.outputs opts estimatedSize alloc t faults = .error e ∧
      faults i s = some e' := by
  unfold Compaction.outputs
  dsimp only
  rcases merge_spec h hv faults with ⟨herr, hperm, hsorted⟩ | ⟨e, i, s, herr, hs⟩
  · left
    have hasc := h.ascending hv hperm hsorted
    have hvalid : forall p : Pair, p ∈ (c.merge t faults).1 ->
        exists ik, decodeInternalKey p.key = .ok ik := by
      intro p hp
      rcases List.mem_flatMap.mp (hperm.subset hp) with ⟨n, hn, hp⟩
      rcases List.mem_map.mp hn with ⟨f, hf, rfl⟩
      exact (hv.tables f (h.mem_all hf)).valid p hp
    have hstart : Building.OK alloc {} := ⟨fun o ho => (by cases ho), rfl⟩
    rcases foldlM_step (ε := ε) (c := c) opts estimatedSize hasc hvalid hstart
      (fun q hq => (by cases hq)) (follows_none _) with ⟨b, hb, hok, hpairs⟩
    rw [hb, herr]
    refine ⟨_, b.all, rfl, hperm, hasc, hpairs, hok.nonempty, ?_⟩
    have hlength := congrArg List.length hok.numbers
    rw [List.length_map, List.length_map, List.length_range] at hlength
    rw [hok.numbers, hlength]
  · right
    cases hfold : ((c.merge t faults).1.foldlM (step c opts estimatedSize alloc) {} :
        Except (CompactError ε) Building) with
    | error e' => exact ⟨e', i, s, e, rfl, hs⟩
    | ok b =>
        rw [herr]
        exact ⟨.read e, i, s, e, rfl, hs⟩

theorem written_of_mem (h : (outs.map Output.fileNum).Nodup) (ho : o ∈ outs) :
    written t outs o.fileNum = o.pairs := by
  unfold written
  rw [find?_key_of_mem h ho]

theorem written_of_not_mem {n : Nat} (h : n ∉ outs.map Output.fileNum) :
    written t outs n = t n := by
  have hnone : (outs.find? fun o => o.fileNum = n) = none := by
    rw [List.find?_eq_none]
    intro o ho heq
    apply h
    rw [← of_decide_eq_true heq]
    exact List.mem_map_of_mem ho
  unfold written
  rw [hnone]

theorem bounds_fileMeta (h : o.pairs ≠ []) (l : Nat) (fileSize : List Pair -> Nat) :
    exists first last, o.pairs.head? = some first ∧ o.pairs.getLast? = some last ∧
      (o.fileMeta l fileSize).smallest = first.key ∧
      (o.fileMeta l fileSize).largest = last.key := by
  cases hhead : o.pairs.head? with
  | none => exact absurd (List.head?_eq_none_iff.mp hhead) h
  | some first =>
      cases hlast : o.pairs.getLast? with
      | none => exact absurd (List.getLast?_eq_none_iff.mp hlast) h
      | some last =>
          refine ⟨first, last, rfl, rfl, ?_, ?_⟩
          · unfold Output.fileMeta
            rw [hhead]
            rfl
          · unfold Output.fileMeta
            rw [hlast]
            rfl

theorem holds_fileMeta (hw : t o.fileNum = o.pairs) (hasc : Ascending Pair.compare o.pairs)
    (hvalid : forall p, p ∈ o.pairs -> exists ik, decodeInternalKey p.key = .ok ik)
    (hne : o.pairs ≠ []) {l : Nat} {fileSize : List Pair -> Nat} :
    Holds t (o.fileMeta l fileSize) := by
  rcases bounds_fileMeta hne l fileSize with ⟨first, last, hhead, hlast, hsmall, hlarge⟩
  have hw' : t (o.fileMeta l fileSize).fileNum = o.pairs := hw
  constructor
  · rw [hw']
    exact hasc
  · rw [hw']
    exact hvalid
  · rw [hw', hhead, hsmall]
    rfl
  · rw [hw', hlast, hlarge]
    rfl

namespace Result

theorem nodup (h : Result c t alloc merged outs) (halloc : Function.Injective alloc) :
    (outs.map Output.fileNum).Nodup := by
  rw [h.numbers]
  exact List.nodup_range.map halloc

theorem mem_numbers (h : Result c t alloc merged outs) {n : Nat}
    (hn : n ∈ outs.map Output.fileNum) : exists i, n = alloc i := by
  rw [h.numbers] at hn
  rcases List.mem_map.mp hn with ⟨i, _, rfl⟩
  exact ⟨i, rfl⟩

theorem mem_survivors (h : Result c t alloc merged outs) :
    p ∈ c.survivors none merged <-> exists o, o ∈ outs ∧ p ∈ o.pairs := by
  rw [← h.pairs]
  exact List.mem_flatMap

theorem mem_merged (h : Result c t alloc merged outs) :
    p ∈ merged <-> exists f, f ∈ c.inputs ∧ p ∈ t f.fileNum := by
  rw [h.perm.mem_iff, List.mem_flatMap]
  constructor
  · rintro ⟨n, hn, hp⟩
    rcases List.mem_map.mp hn with ⟨f, hf, rfl⟩
    exact ⟨f, hf, hp⟩
  · rintro ⟨f, hf, hp⟩
    exact ⟨f.fileNum, List.mem_map_of_mem hf, hp⟩

theorem exists_input (h : Result c t alloc merged outs) (ho : o ∈ outs) (hp : p ∈ o.pairs) :
    exists f, f ∈ c.inputs ∧ p ∈ t f.fileNum := by
  have hsurvives := h.mem_survivors.mpr ⟨o, ho, hp⟩
  exact h.mem_merged.mp ((survivors_sublist c none merged).subset hsurvives)

theorem pairwise (h : Result c t alloc merged outs) :
    (forall o, o ∈ outs -> o.pairs.Pairwise fun p q => compare p.userKey q.userKey = .lt) ∧
      outs.Pairwise fun o o' => forall p, p ∈ o.pairs -> forall q, q ∈ o'.pairs ->
        compare p.userKey q.userKey = .lt := by
  have hsorted := survivors_pairwise (c := c) h.ascending (follows_none merged)
  rw [← h.pairs, List.pairwise_flatMap] at hsorted
  exact hsorted

theorem bounds (h : Result c t alloc merged outs) (ho : o ∈ outs) (l : Nat)
    (fileSize : List Pair -> Nat) :
    exists first last, o.pairs.head? = some first ∧ o.pairs.getLast? = some last ∧
      (o.fileMeta l fileSize).smallest = first.key ∧
      (o.fileMeta l fileSize).largest = last.key :=
  bounds_fileMeta (h.nonempty o ho) l fileSize

theorem holds (h : Result c t alloc merged outs) (halloc : Function.Injective alloc)
    (hv : Layered v t) (hc : Chosen v c level output) (ho : o ∈ outs) (l : Nat)
    (fileSize : List Pair -> Nat) : Holds (written t outs) (o.fileMeta l fileSize) := by
  have hw : written t outs (o.fileMeta l fileSize).fileNum = o.pairs :=
    written_of_mem (h.nodup halloc) ho
  apply holds_fileMeta hw _ _ (h.nonempty o ho)
  · apply (h.pairwise.left o ho).imp
    intro p q hlt
    exact compareKeys_of_userKey_lt hlt
  · intro p hp
    rcases h.exists_input ho hp with ⟨f, hf, hp⟩
    exact (hv.tables f (hc.mem_all hf)).valid p hp

theorem apart (h : Result c t alloc merged outs) (ho : o ∈ outs) (ho' : o' ∈ outs)
    (hne : o ≠ o') (l : Nat) (fileSize : List Pair -> Nat) :
    Apart (o.fileMeta l fileSize) (o'.fileMeta l fileSize) := by
  have hsymm : Std.Symm fun o o' : Output =>
      Apart (o.fileMeta l fileSize) (o'.fileMeta l fileSize) :=
    ⟨fun _ _ hapart => hapart.symm⟩
  have hall : outs.Pairwise fun o o' =>
      Apart (o.fileMeta l fileSize) (o'.fileMeta l fileSize) := by
    refine h.pairwise.right.imp_of_mem ?_
    intro a b ha hb hlt
    rcases h.bounds ha l fileSize with ⟨_, last, _, hlast, _, hlarge⟩
    rcases h.bounds hb l fileSize with ⟨first, _, hhead, _, hsmall, _⟩
    left
    rw [hlarge, hsmall]
    exact hlt last (List.mem_of_getLast? hlast) first (List.mem_of_mem_head? hhead)
  exact hall.forall ho ho' hne

theorem apart_of_not_input (h : Result c t alloc merged outs) (hv : Layered v t)
    (hc : Chosen v c level output) (hf : f ∈ v.files output) (hnot : f ∉ c.inputs)
    (ho : o ∈ outs) (l : Nat) (fileSize : List Pair -> Nat) :
    Apart f (o.fileMeta l fileSize) := by
  rcases h.bounds ho l fileSize with ⟨first, last, hhead, hlast, hsmall, hlarge⟩
  have hnot' : f ∉ c.inMetaOutput := fun hin => hnot (List.mem_append_right _ hin)
  rcases hc.one_side hv hf hnot' with hside | hside
  · left
    rcases h.exists_input ho (List.mem_of_mem_head? hhead) with ⟨g, hg, hp⟩
    rw [hsmall]
    exact hside g first hg hp
  · right
    rcases h.exists_input ho (List.mem_of_getLast? hlast) with ⟨g, hg, hp⟩
    rw [hlarge]
    exact hside g last hg hp

end Result

/-!
## The edit
-/

/-- A version that has received tables in level 0 since the choice. -/
structure Flushed (v v₁ : Version) : Prop where
  deeper : forall l, l.val ≠ 0 -> v₁.files l = v.files l
  kept : forall l f, f ∈ v.files l -> f ∈ v₁.files l
  younger : forall l f g, l.val = 0 -> f ∈ v₁.files l -> f ∉ v.files l -> g ∈ v.files l ->
    g.fileNum < f.fileNum

theorem Flushed.refl (v : Version) : Flushed v v where
  deeper := fun _ _ => rfl
  kept := fun _ _ hf => hf
  younger := fun _ _ _ _ hf hnot => absurd hf hnot

theorem compareKeys_of_apart {l : Level} (hl : l.val ≠ 0) (hbefore : Before l f f')
    (hapart : Apart f f') (hf' : (compare (userKey f'.smallest) (userKey f'.largest)).isLE = true) :
    compareKeys f.largest f'.smallest = .lt := by
  unfold Before at hbefore
  rw [if_neg hl] at hbefore
  apply compareKeys_of_userKey_lt
  rcases hapart with hlt | hlt
  · exact hlt
  · have hle := TransCmp.isLE_trans (userKey_isLE hbefore) hf'
    have hbad := TransCmp.lt_of_lt_of_isLE hlt hle
    have hself : compare (userKey f'.largest) (userKey f'.largest) = .eq := cmp_self _
    rw [hself] at hbad
    cases hbad

theorem checkBounds_of_holds (h : Holds t f) : checkBounds f = .ok () := by
  rcases Option.map_eq_some_iff.mp h.smallest with ⟨first, hhead, hsmall⟩
  rcases Option.map_eq_some_iff.mp h.largest with ⟨last, hlast, hlarge⟩
  rcases h.valid first (List.mem_of_mem_head? hhead) with ⟨ik, hik⟩
  rcases h.valid last (List.mem_of_getLast? hlast) with ⟨ik', hik'⟩
  have hlen := (decodeInternalKey_eq_ok hik).left
  have hlen' := (decodeInternalKey_eq_ok hik').left
  have hle : KeyLE f.smallest f.largest := by
    rw [← hsmall, ← hlarge]
    exact isLE_head h.ascending hhead (List.mem_of_getLast? hlast)
  unfold checkBounds
  rw [← hsmall] at hle ⊢
  rw [← hlarge] at hle ⊢
  rw [if_neg (by lia), if_pos hle]

/-- The tables after the edit: those that were not merged, and the outputs. -/
def Edited (v₁ : Version) (c : Compaction) (output : Level) (outs : List Output)
    (fileSize : List Pair -> Nat) (l : Level) (f : FileMeta) : Prop :=
  (f ∈ v₁.files l ∧ f ∉ c.inputs) ∨
    (l = output ∧ exists o, o ∈ outs ∧ f = o.fileMeta c.output fileSize)

section Edit

variable (hv : Layered v t) (hv₁ : Layered v₁ t) (hflush : Flushed v v₁)
  (hc : Chosen v c level output) (halloc : Function.Injective alloc)
  (hnew : forall i, alloc i ∉ v₁.live) (hr : Result c t alloc merged outs)
  {fileSize : List Pair -> Nat} {l : Level}

include hnew hr

theorem written_of_live {n : Nat} (hn : n ∈ v₁.live) : written t outs n = t n := by
  apply written_of_not_mem
  intro hmem
  rcases hr.mem_numbers hmem with ⟨i, rfl⟩
  exact hnew i hn

include hv hv₁ hc halloc

theorem Edited.holds (h : Edited v₁ c output outs fileSize l f) :
    Holds (written t outs) f := by
  rcases h with ⟨hf, _⟩ | ⟨_, o, ho, rfl⟩
  · have hlive : f.fileNum ∈ v₁.live := Version.mem_live.mpr ⟨l, f, hf, rfl⟩
    have hold := hv₁.tables f (Version.mem_all.mpr ⟨l, hf⟩)
    have hw := written_of_live hnew hr hlive
    constructor
    · rw [hw]
      exact hold.ascending
    · rw [hw]
      exact hold.valid
    · rw [hw]
      exact hold.smallest
    · rw [hw]
      exact hold.largest
  · exact hr.holds halloc hv hc ho c.output fileSize

omit hnew halloc

include hflush

theorem Edited.apart (hl : l.val ≠ 0) (h : Edited v₁ c output outs fileSize l f)
    (h' : Edited v₁ c output outs fileSize l f') (hne : f.fileNum ≠ f'.fileNum) : Apart f f' := by
  rcases h with ⟨hf, hnot⟩ | ⟨rfl, o, ho, rfl⟩
  · rcases h' with ⟨hf', _⟩ | ⟨rfl, o, ho, rfl⟩
    · have hlevel : f.level = f'.level := by
        rw [hv₁.wellFormed.level l f hf, hv₁.wellFormed.level l f' hf']
      apply hv₁.apart f f' (Version.mem_all.mpr ⟨l, hf⟩) (Version.mem_all.mpr ⟨l, hf'⟩) hlevel _ hne
      rw [hv₁.wellFormed.level l f hf]
      exact hl
    · rw [hflush.deeper l hl] at hf
      exact hr.apart_of_not_input hv hc hf hnot ho c.output fileSize
  · rcases h' with ⟨hf', hnot⟩ | ⟨_, o', ho', rfl⟩
    · rw [hflush.deeper l hl] at hf'
      exact (hr.apart_of_not_input hv hc hf' hnot ho c.output fileSize).symm
    · apply hr.apart ho ho'
      rintro rfl
      exact hne rfl

include hnew halloc

/-- The edit is accepted. -/
theorem applyEdit_compaction (fileSize : List Pair -> Nat) :
    exists v', applyEdit v₁ (c.edit fileSize outs) = .ok v' ∧
      (forall l f, f ∈ v'.files l <-> Edited v₁ c output outs fileSize l f) ∧
      forall l, (v'.files l).Perm ((v₁.files l).filter (fun f => f ∉ c.inputs) ++
        if l = output then outs.map fun o => o.fileMeta c.output fileSize else []) := by
  have hmem : forall f, f ∈ c.inputs -> exists l, f ∈ v₁.files l := by
    intro f hf
    rcases hc.mem_inputs hf with ⟨_, hf⟩ | ⟨_, hf⟩
    · exact ⟨level, hflush.kept level f hf⟩
    · exact ⟨output, hflush.kept output f hf⟩
  rcases foldlM_deleteFile hv₁.wellFormed.loose hmem (hc.nodup hv.wellFormed) with
    ⟨deleted, hdeleted, hfiles⟩
  -- Among the live tables, the numbers tell the inputs apart.
  have hkept : forall l, deleted.files l = (v₁.files l).filter fun f => f ∉ c.inputs := by
    intro l
    rw [hfiles]
    apply List.filter_congr
    intro f hf
    rw [decide_eq_decide]
    apply not_congr
    constructor
    · intro hnum
      rcases List.mem_map.mp hnum with ⟨g, hg, heq⟩
      rcases hmem g hg with ⟨l', hg'⟩
      have hsame := hv₁.wellFormed.apart l' l g f hg' hf heq
      subst hsame
      rw [List.inj_on_of_nodup_map (hv₁.wellFormed.nodup l') hg' hf heq] at hg
      exact hg
    · intro hin
      exact List.mem_map_of_mem hin
  have hnums : (outs.map fun o => o.fileMeta c.output fileSize).map FileMeta.fileNum =
      outs.map Output.fileNum := by
    rw [List.map_map]
    rfl
  have hlevels : forall f, f ∈ (outs.map fun o => o.fileMeta c.output fileSize) ->
      f.level = output.val := by
    intro f hf
    rcases List.mem_map.mp hf with ⟨o, _, rfl⟩
    exact hc.into
  have hfresh : forall f, f ∈ (outs.map fun o => o.fileMeta c.output fileSize) ->
      f.fileNum ∉ v₁.live := by
    intro f hf
    rcases List.mem_map.mp hf with ⟨o, ho, rfl⟩
    rcases hr.mem_numbers (List.mem_map_of_mem ho) with ⟨i, hi⟩
    show o.fileNum ∉ v₁.live
    rw [hi]
    exact hnew i
  rcases foldlM_addFile (v := deleted)
    (fun f hf => (hlevels f hf).symm ▸ output.isLt) (hnums ▸ hr.nodup halloc)
    (fun f hf hlive => by
      rcases Version.mem_live.mp hlive with ⟨l, g, hg, hnum⟩
      rw [hkept] at hg
      exact hfresh f hf (Version.mem_live.mpr ⟨l, g, (List.mem_filter.mp hg).left, hnum⟩)) with
    ⟨added, hadded, hall⟩
  have houts : forall l, added.files l = (v₁.files l).filter (fun f => f ∉ c.inputs) ++
      if l = output then outs.map fun o => o.fileMeta c.output fileSize else [] := by
    intro l
    rw [hall, hkept]
    congr 1
    split
    · rename_i hl
      apply List.filter_eq_self.mpr
      intro f hf
      rw [hl]
      exact decide_eq_true (hlevels f hf)
    · rename_i hl
      apply List.filter_eq_nil_iff.mpr
      intro f hf heq
      exact hl (Fin.ext ((of_decide_eq_true heq).symm.trans (hlevels f hf)))
  have hadd : forall l f, f ∈ added.files l <-> Edited v₁ c output outs fileSize l f := by
    intro l f
    rw [houts, List.mem_append, List.mem_filter, decide_eq_true_iff]
    apply or_congr Iff.rfl
    split
    · rename_i hl
      rw [List.mem_map]
      constructor
      · rintro ⟨o, ho, rfl⟩
        exact ⟨hl, o, ho, rfl⟩
      · rintro ⟨_, o, ho, rfl⟩
        exact ⟨o, ho, rfl⟩
    · rename_i hl
      constructor
      · intro hf
        cases hf
      · rintro ⟨heq, _⟩
        exact absurd heq hl
  refine ⟨sortLevels added, applyEdit_eq_ok.mpr ⟨deleted, added, hdeleted, hadded, ?_, ?_, rfl⟩,
    ?_, ?_⟩
  · intro f hf
    rcases List.mem_map.mp hf with ⟨o, ho, rfl⟩
    exact checkBounds_of_holds (hr.holds halloc hv hc ho c.output fileSize)
  · intro l
    unfold checkLevel
    split
    · rfl
    · rename_i hl
      apply checkDisjoint_of_pairwise
      have hperm := List.perm_insertionSort (Before l) (added.files l)
      have hloose := (hv₁.wellFormed.loose.of_sublist
        (sublist_deleteFiles hdeleted)).addFiles hadded
      have hnodup : ((added.files l).insertionSort (Before l)).Pairwise
          fun f f' => f.fileNum ≠ f'.fileNum :=
        List.pairwise_map.mp ((hperm.map FileMeta.fileNum).nodup_iff.mpr (hloose.nodup l))
      have hsorted := List.pairwise_insertionSort (Before l) (added.files l)
      refine (hsorted.and hnodup).imp_of_mem ?_
      intro f f' hf hf' hboth
      have hed := (hadd l f).mp (hperm.mem_iff.mp hf)
      have hed' := (hadd l f').mp (hperm.mem_iff.mp hf')
      exact compareKeys_of_apart hl hboth.left
        (hed.apart hv hv₁ hflush hc hr hl hed' hboth.right)
        (hed'.holds hv hv₁ hc halloc hnew hr).bounds_isLE
  · intro l f
    rw [← hadd]
    exact (List.perm_insertionSort (Before l) (added.files l)).mem_iff
  · intro l
    rw [← houts]
    exact List.perm_insertionSort (Before l) (added.files l)

end Edit

end

end Engine
end Basalt
