import Basalt.Engine.Skiplist

/-!
# Insertions into the skiplist

An insertion puts a node between the smaller and the larger keys, on as many
levels as it is high.  The skiplist is thereby a sorted list of pairs, which is
what the model of the engine has for a memtable.
-/

namespace Basalt
namespace Engine

open Lib Base Std Wal

namespace Skiplist

variable {m : Skiplist} {ids lower upper : List Nat} {key : Bytes}

/-!
## The insertion
-/

structure SameNodes (m m' : Skiplist) : Prop where
  headLength : m'.head.length = m.head.length
  length : m'.nodes.length = m.nodes.length
  height : m'.height = m.height
  pairAt : forall i, m'.pairAt i = m.pairAt i
  heightOf : forall i, m'.heightOf i = m.heightOf i

theorem SameNodes.refl (m : Skiplist) : SameNodes m m :=
  ⟨rfl, rfl, rfl, fun _ => rfl, fun _ => rfl⟩

theorem SameNodes.trans {m' m'' : Skiplist} (h : SameNodes m m') (h' : SameNodes m' m'') :
    SameNodes m m'' :=
  ⟨h'.headLength.trans h.headLength, h'.length.trans h.length, h'.height.trans h.height,
    fun i => (h'.pairAt i).trans (h.pairAt i), fun i => (h'.heightOf i).trans (h.heightOf i)⟩

theorem store_spec {level : Nat} {x : Place} (p : Option Nat)
    (hx : exists q, m.load level x = some q) :
    exists m', m.store level x p = .ok m' ∧ SameNodes m m' ∧
      forall j y, m'.load j y = if j = level ∧ y = x then some p else m.load j y := by
  rcases hx with ⟨q, hq⟩
  unfold store
  rw [hq, Option.isSome_some, if_pos rfl]
  cases x with
  | none =>
      refine ⟨_, rfl, ⟨List.length_set, rfl, rfl, fun _ => rfl, fun _ => rfl⟩, fun j y => ?_⟩
      cases y with
      | none =>
          show (m.head.set level p)[j]? = _
          have hlt : level < m.head.length := (List.getElem?_eq_some_iff.mp hq).choose
          rw [List.getElem?_set]
          split
          · next heq =>
              subst heq
              rw [if_pos ⟨rfl, rfl⟩]
          · next hne =>
              rw [if_neg fun hand => hne hand.left.symm]
              rfl
      | some i =>
          rw [if_neg fun hand => by cases hand.right]
          rfl
  | some i =>
      rcases Option.bind_eq_some_iff.mp hq with ⟨n, hn, hlink⟩
      have hlt : level < n.next.length := (List.getElem?_eq_some_iff.mp hlink).choose
      have hget : forall k, (m.nodes.modify i fun n => { n with next := n.next.set level p })[k]? =
          if i = k then some { n with next := n.next.set level p } else m.nodes[k]? := by
        intro k
        rw [List.getElem?_modify]
        split
        · next heq =>
            subst heq
            rw [hn]
            rfl
        · exact congrFun Option.map_id_fun' m.nodes[k]?
      refine ⟨_, rfl, ⟨rfl, List.length_modify _ _ _, rfl, fun k => ?_, fun k => ?_⟩, fun j y => ?_⟩
      · unfold pairAt
        rw [hget]
        split
        · next heq =>
            subst heq
            rw [hn]
            rfl
        · rfl
      · unfold heightOf
        rw [hget]
        split
        · next heq =>
            subst heq
            rw [hn]
            exact List.length_set
        · rfl
      · cases y with
        | none =>
            rw [if_neg fun hand => by cases hand.right]
            rfl
        | some k =>
            show (_ : Option Node).bind (fun n => n.next[j]?) = _
            rw [hget]
            split
            · next heq =>
                subst heq
                show (n.next.set level p)[j]? = _
                rw [List.getElem?_set]
                split
                · next heq =>
                    subst heq
                    rw [if_pos ⟨rfl, rfl⟩]
                · next hne =>
                    rw [if_neg fun hand => hne hand.left.symm]
                    show _ = m.nodes[i]?.bind fun n => n.next[j]?
                    rw [hn]
                    rfl
            · next hne =>
                rw [if_neg fun hand => hne (Option.some.inj hand.right).symm]
                rfl

theorem storePreds_spec {n h : Nat} {preds : Preds} {pred : Nat -> Place}
    (hpreds : forall j, j < h -> preds j = some (pred j))
    (hload : forall j, j < h -> exists q, m.load j (pred j) = some q) :
    exists m', (List.range h).foldlM (storePred n preds) m = .ok m' ∧ SameNodes m m' ∧
      forall j y, m'.load j y = if j < h ∧ y = pred j then some (some n) else m.load j y := by
  induction h with
  | zero =>
      refine ⟨m, rfl, SameNodes.refl m, fun j y => ?_⟩
      rw [if_neg fun hand => Nat.not_lt_zero j hand.left]
  | succ h ih =>
      rcases ih (fun j hj => hpreds j (Nat.lt_succ_of_lt hj))
        (fun j hj => hload j (Nat.lt_succ_of_lt hj)) with ⟨mid, hmid, hsame, hlinks⟩
      have hnow : exists q, mid.load h (pred h) = some q := by
        rw [hlinks, if_neg fun hand => Nat.lt_irrefl h hand.left]
        exact hload h (Nat.lt_succ_self h)
      rcases store_spec (some n) hnow with ⟨m', hm', hsame', hlinks'⟩
      have hlast : storePred n preds mid h = .ok m' := by
        unfold storePred
        rw [hpreds h (Nat.lt_succ_self h)]
        exact hm'
      refine ⟨m', ?_, hsame.trans hsame', fun j y => ?_⟩
      · rw [List.range_succ, List.foldlM_append, bind_of_ok hmid, List.foldlM_cons, bind_of_ok hlast]
        rfl
      · rw [hlinks', hlinks]
        rcases Nat.lt_trichotomy j h with hlt | rfl | hgt
        · rw [if_neg fun hand => Nat.ne_of_lt hlt hand.left]
          exact if_congr (and_congr_left' ⟨fun _ => Nat.lt_succ_of_lt hlt, fun _ => hlt⟩) rfl rfl
        · rw [if_congr (and_congr_left' ⟨fun _ => Nat.lt_succ_self j, fun _ => rfl⟩) rfl rfl]
          split
          · rfl
          · next hne => rw [if_neg fun hand => Nat.lt_irrefl j hand.left]
        · rw [if_neg fun hand => Nat.ne_of_gt hgt hand.left,
            if_neg fun hand => Nat.not_lt_of_gt hgt hand.left,
            if_neg fun hand => Nat.not_le_of_gt hgt (Nat.le_of_lt_succ hand.left)]

theorem getElem?_grow (m : Skiplist) (node : Node) (h i : Nat) :
    (m.grow node h).nodes[i]? = if i = m.nodes.length then some node else m.nodes[i]? := by
  show (m.nodes ++ [node])[i]? = _
  rcases Nat.lt_trichotomy i m.nodes.length with hlt | rfl | hgt
  · rw [if_neg (Nat.ne_of_lt hlt), List.getElem?_append_left hlt]
  · rw [if_pos rfl, List.getElem?_append_right (Nat.le_refl _), Nat.sub_self]
    rfl
  · rw [if_neg (Nat.ne_of_gt hgt), List.getElem?_append_right (Nat.le_of_lt hgt),
      List.getElem?_eq_none (Nat.le_of_lt hgt), List.getElem?_eq_none]
    rw [List.length_singleton]
    lia

theorem load_grow (m : Skiplist) (node : Node) (h j : Nat) (y : Place) :
    (m.grow node h).load j y = if y = some m.nodes.length then node.next[j]? else m.load j y := by
  cases y with
  | none =>
      rw [if_neg fun heq => by cases heq]
      rfl
  | some i =>
      show (m.grow node h).nodes[i]?.bind (fun n => n.next[j]?) = _
      rw [getElem?_grow]
      by_cases heq : i = m.nodes.length
      · rw [if_pos heq, if_pos (congrArg some heq)]
        rfl
      · rw [if_neg heq, if_neg fun hsome => heq (Option.some.inj hsome)]
        rfl

theorem pairAt_grow (m : Skiplist) (node : Node) (h i : Nat) :
    (m.grow node h).pairAt i = if i = m.nodes.length then { key := node.key, value := node.value }
      else m.pairAt i := by
  unfold pairAt
  rw [getElem?_grow]
  split
  · rfl
  · rfl

theorem heightOf_grow (m : Skiplist) (node : Node) (h i : Nat) :
    (m.grow node h).heightOf i = if i = m.nodes.length then node.next.length
      else m.heightOf i := by
  unfold heightOf
  rw [getElem?_grow]
  split
  · rfl
  · rfl

theorem Ordered.lt_upper (h : m.Ordered ids) (hcut : m.CutAt key ids lower upper)
    (hnew : m.hasKey key upper.head? = false) {i : Nat} (hi : i ∈ upper) :
    compareKeys key (m.pairAt i).key = .lt := by
  cases upper with
  | nil => cases hi
  | cons first upper =>
      have hfirst : compareKeys key (m.pairAt first).key = .lt := by
        have hnot : (compareKeys (m.pairAt first).key key).isLT = false :=
          hcut.upper first List.mem_cons_self
        have hne : ¬ compareKeys (m.pairAt first).key key = .eq := of_decide_eq_false hnew
        rw [@OrientedCmp.eq_swap Bytes compareKeys]
        cases hcmp : compareKeys (m.pairAt first).key key with
        | lt =>
            rw [hcmp] at hnot
            cases hnot
        | eq => exact absurd hcmp hne
        | gt => rfl
      have hasc : Ascending m.byKey (first :: upper) := by
        apply h.ascending.sublist
        rw [hcut.eq]
        exact List.sublist_append_right lower _
      rcases List.mem_cons.mp hi with rfl | hi
      · exact hfirst
      · exact TransCmp.lt_trans hfirst ((List.pairwise_cons.mp hasc).left i hi)

theorem Ordered.hasKey_of_mem (h : m.Ordered ids) (hcut : m.CutAt key ids lower upper) {i : Nat}
    (hi : i ∈ ids) (heq : compareKeys (m.pairAt i).key key = .eq) :
    m.hasKey key upper.head? = true := by
  by_contra hnew
  rw [hcut.eq] at hi
  rcases List.mem_append.mp hi with hi | hi
  · have hlt : (compareKeys (m.pairAt i).key key).isLT = true := hcut.lower i hi
    rw [heq] at hlt
    cases hlt
  · have hlt := h.lt_upper hcut (Bool.eq_false_of_not_eq_true hnew) hi
    rw [OrientedCmp.eq_comm.mp heq] at hlt
    cases hlt

def linksTo (m : Skiplist) (h : Nat) (upper : List Nat) : List (Option Nat) :=
  (List.range h).map fun j => (m.onLevel j upper).head?

theorem getElem?_linksTo {h j : Nat} (hj : j < h) :
    (m.linksTo h upper)[j]? = some (m.onLevel j upper).head? := by
  unfold linksTo
  rw [List.getElem?_map, List.getElem?_range hj]
  rfl

def predOf (m : Skiplist) (lower : List Nat) (level : Nat) : Place :=
  (m.onLevel level lower).getLast?

/-- What an insertion leaves: the new node stands between the smaller and the
larger ones, on its levels. -/
structure Inserted (m : Skiplist) (lower upper : List Nat) (pair : Pair) (h : Nat)
    (m' : Skiplist) : Prop where
  headLength : m'.head.length = m.head.length
  length : m'.nodes.length = m.nodes.length + 1
  height : m'.height = max m.height h
  pairOld : forall i, i ∈ lower ++ upper -> m'.pairAt i = m.pairAt i
  pairNew : m'.pairAt m.nodes.length = pair
  heightOld : forall i, i ∈ lower ++ upper -> m'.heightOf i = m.heightOf i
  heightNew : m'.heightOf m.nodes.length = h
  loadOld : forall j y, y ≠ some m.nodes.length -> ¬ (j < h ∧ y = m.predOf lower j) ->
    m'.load j y = m.load j y
  loadPred : forall j, j < h -> m'.load j (m.predOf lower j) = some (some m.nodes.length)
  loadNew : forall j, j < h ->
    m'.load j (some m.nodes.length) = some (m.onLevel j upper).head?

theorem Ordered.ne_length (hord : m.Ordered ids) {i : Nat} (hi : i ∈ ids) : i ≠ m.nodes.length :=
  Nat.ne_of_lt ((hord.mem i).mp hi)

theorem Ordered.predOf_ne (hord : m.Ordered (lower ++ upper)) (level : Nat) :
    m.predOf lower level ≠ some m.nodes.length := by
  intro heq
  have hmem := List.mem_of_mem_filter (List.mem_of_mem_getLast? heq)
  exact hord.ne_length (List.mem_append_left upper hmem) rfl

theorem inserted_of_stores {h : Nat} {value : Bytes} {m' : Skiplist}
    (hord : m.Ordered (lower ++ upper))
    (hsame : SameNodes (m.grow { key := key, value := value, next := m.linksTo h upper } h) m')
    (hlinks : forall j y, m'.load j y =
      if j < h ∧ y = m.predOf lower j then some (some m.nodes.length)
      else (m.grow { key := key, value := value, next := m.linksTo h upper } h).load j y) :
    Inserted m lower upper { key := key, value := value } h m' where
  headLength := hsame.headLength
  length := by
    rw [hsame.length]
    exact List.length_append
  height := hsame.height
  pairOld := fun i hi => by rw [hsame.pairAt, pairAt_grow, if_neg (hord.ne_length hi)]
  pairNew := by rw [hsame.pairAt, pairAt_grow, if_pos rfl]
  heightOld := fun i hi => by rw [hsame.heightOf, heightOf_grow, if_neg (hord.ne_length hi)]
  heightNew := by
    rw [hsame.heightOf, heightOf_grow, if_pos rfl]
    show (m.linksTo h upper).length = h
    rw [linksTo, List.length_map, List.length_range]
  loadOld := fun j y hy hnot => by rw [hlinks, if_neg hnot, load_grow, if_neg hy]
  loadPred := fun j hj => by rw [hlinks, if_pos ⟨hj, rfl⟩]
  loadNew := fun j hj => by
    rw [hlinks, if_neg fun hand => hord.predOf_ne j hand.right.symm, load_grow, if_pos rfl]
    exact getElem?_linksTo hj

namespace Inserted

variable {pair : Pair} {h : Nat} {m' : Skiplist}

theorem onLevel_old (hins : Inserted m lower upper pair h m') (j : Nat) {is : List Nat}
    (hsub : is ⊆ lower ++ upper) : m'.onLevel j is = m.onLevel j is := by
  apply List.filter_congr
  intro i hi
  rw [hins.heightOld i (hsub hi)]

theorem onLevel_cons (hins : Inserted m lower upper pair h m') (j : Nat) :
    m'.onLevel j (m.nodes.length :: upper) =
      if j < h then m.nodes.length :: m.onLevel j upper else m.onLevel j upper := by
  rw [← hins.onLevel_old j (List.subset_append_right lower upper)]
  unfold onLevel
  rw [List.filter_cons, hins.heightNew]
  exact if_congr decide_eq_true_iff rfl rfl

theorem ascending (hins : Inserted m lower upper pair h m') (hasc : Ascending m.byKey (lower ++ upper))
    (hlower : forall i, i ∈ lower -> compareKeys (m.pairAt i).key pair.key = .lt)
    (hupper : forall i, i ∈ upper -> compareKeys pair.key (m.pairAt i).key = .lt) :
    Ascending m'.byKey (lower ++ m.nodes.length :: upper) := by
  have hold : forall is, is ⊆ lower ++ upper -> Ascending m.byKey is -> Ascending m'.byKey is := by
    intro is hsub his
    refine List.Pairwise.imp_of_mem ?_ his
    intro i j hi hj hlt
    unfold byKey at hlt ⊢
    rw [hins.pairOld i (hsub hi), hins.pairOld j (hsub hj)]
    exact hlt
  rcases List.pairwise_append.mp hasc with ⟨hlow, hupp, hcross⟩
  apply List.pairwise_append.mpr
  refine ⟨hold lower (List.subset_append_left _ _) hlow, ?_, ?_⟩
  · refine List.pairwise_cons.mpr ⟨fun i hi => ?_, hold upper (List.subset_append_right _ _) hupp⟩
    unfold byKey
    rw [hins.pairNew, hins.pairOld i (List.mem_append_right lower hi)]
    exact hupper i hi
  · intro i hi j hj
    unfold byKey
    rw [hins.pairOld i (List.mem_append_left upper hi)]
    rcases List.mem_cons.mp hj with rfl | hj
    · rw [hins.pairNew]
      exact hlower i hi
    · rw [hins.pairOld j (List.mem_append_right lower hj)]
      exact hcross i hi j hj

theorem chain (hins : Inserted m lower upper pair h m') (hord : m.Ordered (lower ++ upper))
    {level : Nat} (hlevel : level < maxHeight) :
    Chain (m'.load level) none (m'.onLevel level (lower ++ m.nodes.length :: upper)) := by
  have hchain := hord.chain level hlevel
  rw [onLevel_append] at hchain
  rw [onLevel_append, hins.onLevel_old level (List.subset_append_left lower upper),
    hins.onLevel_cons level]
  have hsub : m.onLevel level lower ++ m.onLevel level upper ⊆ lower ++ upper := by
    rw [← onLevel_append]
    exact fun i hi => List.mem_of_mem_filter hi
  have hpred : lastPlace none (m.onLevel level lower) = m.predOf lower level := lastPlace_none _
  split
  · next hon =>
      apply hchain.splice
      · rw [← onLevel_append]
        exact hord.ascending.nodup.filter _
      · intro i _ heq
        cases heq
      · intro hmem
        exact hord.ne_length (hsub hmem) rfl
      · intro heq
        cases heq
      · rw [hpred]
        exact hins.loadPred level hon
      · have hnext := hchain.after.next
        rw [hins.loadNew level hon, hnext]
      · intro y hy hyn
        rw [hpred] at hy
        exact hins.loadOld level y hyn fun hand => hy hand.right
  · next hoff =>
      refine hchain.congr ?_ ?_
      · apply hins.loadOld level none
        · intro heq
          cases heq
        · exact fun hand => hoff hand.left
      · intro i hi
        apply hins.loadOld level (some i)
        · exact fun heq => hord.ne_length (hsub hi) (Option.some.inj heq)
        · exact fun hand => hoff hand.left

theorem ordered (hins : Inserted m lower upper pair h m') (hord : m.Ordered (lower ++ upper))
    (hpos : 1 ≤ h) (hle : h ≤ maxHeight)
    (hlower : forall i, i ∈ lower -> compareKeys (m.pairAt i).key pair.key = .lt)
    (hupper : forall i, i ∈ upper -> compareKeys pair.key (m.pairAt i).key = .lt) :
    m'.Ordered (lower ++ m.nodes.length :: upper) where
  headLength := hins.headLength.trans hord.headLength
  heightPos := by
    rw [hins.height]
    exact Nat.le_trans hord.heightPos (Nat.le_max_left _ _)
  heightLe := by
    rw [hins.height]
    exact Nat.max_le.mpr ⟨hord.heightLe, hle⟩
  mem := fun i => by
    have hold := hord.mem i
    rw [List.mem_append] at hold
    rw [List.mem_append, List.mem_cons, hins.length, Nat.lt_succ_iff_lt_or_eq, ← hold]
    constructor
    · rintro (hi | rfl | hi)
      · exact Or.inl (Or.inl hi)
      · exact Or.inr rfl
      · exact Or.inl (Or.inr hi)
    · rintro ((hi | hi) | rfl)
      · exact Or.inl hi
      · exact Or.inr (Or.inr hi)
      · exact Or.inr (Or.inl rfl)
  heights := fun i hi => by
    have hcases : i = m.nodes.length ∨ i ∈ lower ++ upper := by
      rw [List.mem_append, List.mem_cons] at hi
      rw [List.mem_append]
      rcases hi with hi | hi | hi
      · exact Or.inr (Or.inl hi)
      · exact Or.inl hi
      · exact Or.inr (Or.inr hi)
    rw [hins.height]
    rcases hcases with rfl | hi
    · rw [hins.heightNew]
      exact ⟨hpos, Nat.le_max_right _ _⟩
    · rw [hins.heightOld i hi]
      exact ⟨(hord.heights i hi).left,
        Nat.le_trans (hord.heights i hi).right (Nat.le_max_left _ _)⟩
  ascending := hins.ascending hord.ascending hlower hupper
  chain := fun _ hlevel => hins.chain hord hlevel

end Inserted

theorem Ordered.onLevel_above (hord : m.Ordered ids) {j : Nat} (hj : m.height ≤ j)
    {is : List Nat} (hsub : is ⊆ ids) : m.onLevel j is = [] := by
  apply List.filter_eq_nil_iff.mpr
  intro i hi hlt
  have hle := (hord.heights i (hsub hi)).right
  have hgt := of_decide_eq_true hlt
  lia

theorem add_spec (hord : m.Ordered ids) {uk : Bytes} {seq h : Nat} {kind : Kind} (value : Bytes)
    (hcut : m.CutAt (appendInternalKey uk seq kind) ids lower upper) (hseq : seq ≤ maxSeq)
    (hpos : 1 ≤ h) (hle : h ≤ maxHeight)
    (hnew : m.hasKey (appendInternalKey uk seq kind) upper.head? = false) :
    exists m', m.add uk seq kind value h = .ok m' ∧
      Inserted m lower upper { key := appendInternalKey uk seq kind, value := value } h m' ∧
      m'.Ordered (lower ++ m.nodes.length :: upper) ∧
      m'.size = m.size + ((appendInternalKey uk seq kind).length + value.length) +
        nodeOverhead + h * ptrSize := by
  have heq := hcut.eq
  subst heq
  rcases findGE_spec hord hcut with ⟨preds, hfind, hset⟩
  have hpreds : forall j, j < h -> m.raise h preds j = some (m.predOf lower j) := by
    intro j hj
    unfold raise
    split
    · next hhigh =>
        unfold predOf
        rw [hord.onLevel_above hhigh.left (List.subset_append_left lower upper)]
        rfl
    · next hlow => exact hset j (by lia)
  have hload : forall j, j < h ->
      m.load j (m.predOf lower j) = some (m.onLevel j upper).head? := by
    intro j hj
    have hchain := hord.chain j (Nat.lt_of_lt_of_le hj hle)
    rw [onLevel_append] at hchain
    have hnext := hchain.after.next
    rw [lastPlace_none] at hnext
    exact hnext
  have hlinks : (List.range h).mapM (m.loadPred (m.raise h preds)) =
      .ok (m.linksTo h upper) := by
    apply mapM_ok
    intro j hj
    have hlt := List.mem_range.mp hj
    unfold loadPred
    rw [hpreds j hlt]
    show (m.load j (m.predOf lower j)).elim _ _ = _
    rw [hload j hlt]
    rfl
  let node : Node :=
    { key := appendInternalKey uk seq kind, value := value, next := m.linksTo h upper }
  have hgrown : forall j, j < h -> exists q, (m.grow node h).load j (m.predOf lower j) = some q := by
    intro j hj
    rw [load_grow, if_neg (hord.predOf_ne j)]
    exact ⟨_, hload j hj⟩
  rcases storePreds_spec hpreds hgrown with ⟨linked, hlinked, hsame, hloads⟩
  have hins := inserted_of_stores hord hsame hloads
  have hlower : forall i, i ∈ lower ->
      compareKeys (m.pairAt i).key (appendInternalKey uk seq kind) = .lt :=
    fun i hi => Ordering.isLT_iff_eq_lt.mp (hcut.lower i hi)
  have hafter := hins.ordered hord hpos hle hlower fun i hi => hord.lt_upper hcut hnew hi
  refine ⟨{ linked with size := _ }, ?_, ?_, ?_, rfl⟩
  · unfold add
    rw [if_neg (Nat.not_lt.mpr hseq)]
    dsimp only
    rw [bind_of_ok hfind]
    dsimp only
    rw [hnew, if_neg Bool.false_ne_true, bind_of_ok hlinks, bind_of_ok hlinked]
  · exact { hins with }
  · exact { hafter with }

theorem add_duplicate (hord : m.Ordered ids) {uk value : Bytes} {seq h : Nat} {kind : Kind}
    (hcut : m.CutAt (appendInternalKey uk seq kind) ids lower upper) (hseq : seq ≤ maxSeq)
    (hthere : m.hasKey (appendInternalKey uk seq kind) upper.head? = true) :
    m.add uk seq kind value h = .error (.duplicateKey (appendInternalKey uk seq kind)) := by
  rcases findGE_spec hord hcut with ⟨preds, hfind, _⟩
  unfold add
  rw [if_neg (Nat.not_lt.mpr hseq)]
  dsimp only
  rw [bind_of_ok hfind, if_pos hthere]

/-!
## The memtable of the engine

The engine is modelled with a memtable that is a sorted list of pairs; the
skiplist is one.
-/

/-- The skiplist holds what the memtable does. -/
structure Represents (m : Skiplist) (t : MemTable) : Prop where
  ordered : exists ids, m.Ordered ids ∧ t.pairs = ids.map m.pairAt
  size : t.size = m.size

theorem represents_new (id : Nat) : ({} : Skiplist).Represents { id := id } :=
  ⟨⟨[], ordered_new, rfl⟩, rfl⟩

theorem insertPair_append {p : Pair} {ps qs : List Pair}
    (hps : forall q, q ∈ ps -> q.compare p = .lt) :
    insertPair p (ps ++ qs) = (insertPair p qs).map (ps ++ ·) := by
  induction ps with
  | nil =>
      cases hins : insertPair p qs with
      | none | some rest =>
          rw [List.nil_append, hins]
          rfl
  | cons q ps ih =>
      have hgt : p.compare q = .gt := OrientedCmp.gt_of_lt (hps q List.mem_cons_self)
      rw [List.cons_append, insertPair, hgt]
      dsimp only
      rw [ih fun r hr => hps r (List.mem_cons_of_mem q hr), Option.map_map]
      rfl

theorem insertPair_of_lt {p : Pair} {ps : List Pair}
    (hps : forall q, q ∈ ps -> p.compare q = .lt) : insertPair p ps = some (p :: ps) := by
  cases ps with
  | nil => rfl
  | cons q ps =>
      rw [insertPair, hps q List.mem_cons_self]

inductive Corresponds : Except SkipFault Skiplist -> Except CoreFault MemTable -> Prop where
  | ok {m : Skiplist} {t : MemTable} (h : m.Represents t) : Corresponds (.ok m) (.ok t)
  | seqExceeds (seq : Nat) : Corresponds (.error (.seqExceeds seq)) (.error (.seqExceeds seq))
  | duplicateKey (key : Bytes) : Corresponds (.error (.duplicateKey key)) (.error .duplicateKey)

theorem Inserted.map_pairAt {pair : Pair} {h : Nat} {m' : Skiplist}
    (hins : Inserted m lower upper pair h m') :
    (lower ++ m.nodes.length :: upper).map m'.pairAt =
      lower.map m.pairAt ++ pair :: upper.map m.pairAt := by
  have hold : forall is, is ⊆ lower ++ upper -> is.map m'.pairAt = is.map m.pairAt :=
    fun is hsub => List.map_congr_left fun i hi => hins.pairOld i (hsub hi)
  rw [List.map_append, List.map_cons, hins.pairNew, hold lower (List.subset_append_left _ _),
    hold upper (List.subset_append_right _ _)]

/-- An insertion into the skiplist is one into the memtable of the engine; the
heights are drawn between one and the highest. -/
theorem Represents.add {t : MemTable} (hrep : m.Represents t) (seq : Nat) (op : Op)
    (height : Fin maxHeight) :
    Corresponds (m.add op.userKey seq (opKind op) (opPair seq op).value (height.val + 1))
      (t.add seq op height) := by
  rcases hrep.ordered with ⟨ids, hord, hpairs⟩
  unfold MemTable.add
  dsimp only
  split
  · next hmax =>
      unfold Skiplist.add
      rw [if_pos hmax]
      exact .seqExceeds seq
  · next hmax =>
      rcases hord.exists_cut (appendInternalKey op.userKey seq (opKind op)) with
        ⟨lower, upper, hcut⟩
      have hlower : forall q, q ∈ lower.map m.pairAt -> q.compare (opPair seq op) = .lt := by
        intro q hq
        rcases List.mem_map.mp hq with ⟨i, hi, rfl⟩
        unfold Pair.compare
        rw [opPair_key]
        exact Ordering.isLT_iff_eq_lt.mp (hcut.lower i hi)
      have hinsert : insertPair (opPair seq op) t.pairs =
          (insertPair (opPair seq op) (upper.map m.pairAt)).map (lower.map m.pairAt ++ ·) := by
        rw [hpairs, hcut.eq, List.map_append, insertPair_append hlower]
      cases hthere : m.hasKey (appendInternalKey op.userKey seq (opKind op)) upper.head? with
      | true =>
          rw [add_duplicate hord hcut (Nat.le_of_not_lt hmax) hthere]
          cases upper with
          | nil => cases hthere
          | cons first upper =>
              have heq : (opPair seq op).compare (m.pairAt first) = .eq := by
                unfold Pair.compare
                rw [opPair_key]
                exact OrientedCmp.eq_comm.mp (of_decide_eq_true hthere)
              rw [hinsert, List.map_cons, insertPair, heq]
              exact .duplicateKey _
      | false =>
          rcases add_spec hord (opPair seq op).value hcut (Nat.le_of_not_lt hmax)
            (Nat.le_add_left 1 height.val) height.isLt hthere with ⟨m', hadd, hins, hord', hsize⟩
          have hupper : forall q, q ∈ upper.map m.pairAt -> (opPair seq op).compare q = .lt := by
            intro q hq
            rcases List.mem_map.mp hq with ⟨i, hi, rfl⟩
            unfold Pair.compare
            rw [opPair_key]
            exact hord.lt_upper hcut hthere hi
          have hpair : Pair.mk (appendInternalKey op.userKey seq (opKind op))
              (opPair seq op).value = opPair seq op := by
            rw [← opPair_key]
          rw [hadd, hinsert, insertPair_of_lt hupper]
          refine .ok ⟨⟨_, hord', ?_⟩, ?_⟩
          · rw [hins.map_pairAt, hpair]
          · show t.size + _ + nodeOverhead + _ = m'.size
            rw [hsize, hrep.size, opPair_key]

def addOp (m : Skiplist) (a : Nat × Op × Fin maxHeight) : Except SkipFault Skiplist :=
  m.add a.2.1.userKey a.1 (opKind a.2.1) (opPair a.1 a.2.1).value (a.2.2.val + 1)

theorem Represents.addOps {t : MemTable} (hrep : m.Represents t)
    (adds : List (Nat × Op × Fin maxHeight)) :
    Corresponds (adds.foldlM addOp m) (adds.foldlM (fun t a => t.add a.1 a.2.1 a.2.2) t) := by
  induction adds generalizing m t with
  | nil => exact .ok hrep
  | cons a adds ih =>
      rw [List.foldlM_cons, List.foldlM_cons]
      have hadd : Corresponds (m.addOp a) (t.add a.1 a.2.1 a.2.2) := hrep.add a.1 a.2.1 a.2.2
      revert hadd
      generalize m.addOp a = x, t.add a.1 a.2.1 a.2.2 = y
      intro hadd
      cases hadd with
      | ok hrep' => exact ih hrep'
      | seqExceeds seq => exact .seqExceeds seq
      | duplicateKey key => exact .duplicateKey key

/-- Filled with the same operations, a new skiplist and the sorted list of the engine's
model end with the same contents and size, or with the same panic. -/
theorem filled_corresponds (id : Nat) (adds : List (Nat × Op × Fin maxHeight)) :
    Corresponds (adds.foldlM addOp {})
      (adds.foldlM (fun t a => t.add a.1 a.2.1 a.2.2) ({ id := id } : MemTable)) :=
  (represents_new id).addOps adds

end Skiplist

end Engine
end Basalt
