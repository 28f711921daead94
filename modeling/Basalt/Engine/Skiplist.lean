import Mathlib.Data.List.FinRange
import Basalt.Lib.Linked
import Basalt.Engine.History

/-!
# The skiplist

A memtable is a skiplist: every node has a key, a value and one link for each
level up to its height, and the head has a link for every level.  A search
starts on the highest level in use and goes down where the next node would be
too far; an insertion puts the new node behind the places at which its search
went down.

Nodes are numbered in the order in which they were allocated.
-/

namespace Basalt
namespace Engine

open Lib Base Std Wal

structure Skiplist.Node where
  key : Bytes
  value : Bytes
  next : List (Option Nat)
deriving DecidableEq, Repr

structure Skiplist where
  head : List (Option Nat) := List.replicate maxHeight none
  nodes : List Skiplist.Node := []
  height : Nat := 1
  size : Nat := 0
deriving DecidableEq, Repr

/-- What stops the process.  The last three are panics of the runtime, and a
search that does not end. -/
inductive SkipFault where
  | seqExceeds (seq : Nat)
  | duplicateKey (key : Bytes)
  | corruptKey (e : KeyError)
  | outOfRange
  | nilNode
  | endless
deriving DecidableEq, Repr

/-- The places behind which a new node goes, level by level; those that no
search has set are `none`. -/
abbrev Preds := Nat -> Option Place

namespace Skiplist

def load (m : Skiplist) (level : Nat) : Links
  | some i => m.nodes[i]?.bind fun n => n.next[level]?
  | none => m.head[level]?

def store (m : Skiplist) (level : Nat) (x : Place) (p : Option Nat) :
    Except SkipFault Skiplist :=
  if (m.load level x).isSome then
    match x with
    | some i => .ok
        { m with nodes := m.nodes.modify i fun n => { n with next := n.next.set level p } }
    | none => .ok { m with head := m.head.set level p }
  else .error .outOfRange

def pairAt (m : Skiplist) (i : Nat) : Pair :=
  m.nodes[i]?.elim { key := [], value := [] } fun n => { key := n.key, value := n.value }

def before (m : Skiplist) (key : Bytes) (next : Option Nat) : Bool :=
  next.any fun i => (compareKeys (m.pairAt i).key key).isLT

def hasKey (m : Skiplist) (key : Bytes) (next : Option Nat) : Bool :=
  next.any fun i => compareKeys (m.pairAt i).key key = .eq

/-- The loop of the search, at a place of a level. -/
def findLoop (m : Skiplist) (key : Bytes) :
    Nat -> Place -> Nat -> Preds -> Except SkipFault (Option Nat × Preds)
  | 0, _, _, _ => .error .endless
  | fuel + 1, x, level, preds =>
      match m.load level x with
      | some next =>
          if m.before key next then m.findLoop key fuel next level preds
          else
            let preds := Function.update preds level (some x)
            match level with
            | 0 => .ok (next, preds)
            | level + 1 => m.findLoop key fuel x level preds
      | none => .error .outOfRange

/-- The search from a level on; it passes every node at most once. -/
def findFrom (m : Skiplist) (key : Bytes) (level : Nat) :
    Except SkipFault (Option Nat × Preds) :=
  m.findLoop key (m.nodes.length + level + 1) none level fun _ => none

def findGE (m : Skiplist) (key : Bytes) : Except SkipFault (Option Nat × Preds) :=
  m.findFrom key (m.height - 1)

/-- On the levels that come into use the new node goes behind the head. -/
def raise (m : Skiplist) (h : Nat) (preds : Preds) : Preds :=
  fun i => if m.height ≤ i ∧ i < h then some none else preds i

def loadPred (m : Skiplist) (preds : Preds) (level : Nat) : Except SkipFault (Option Nat) :=
  (preds level).elim (.error .nilNode) fun x => (m.load level x).elim (.error .outOfRange) .ok

def storePred (n : Nat) (preds : Preds) (m : Skiplist) (level : Nat) :
    Except SkipFault Skiplist :=
  (preds level).elim (.error .nilNode) fun x => m.store level x (some n)

def grow (m : Skiplist) (node : Node) (h : Nat) : Skiplist :=
  { m with nodes := m.nodes ++ [node], height := max m.height h }

/-- `MemTable.Add`, with the height that was drawn. -/
def add (m : Skiplist) (userKey : Bytes) (seq : Nat) (kind : Kind) (value : Bytes) (h : Nat) :
    Except SkipFault Skiplist :=
  if maxSeq < seq then .error (.seqExceeds seq)
  else do
    let key := appendInternalKey userKey seq kind
    let found <- m.findGE key
    if m.hasKey key found.1 then .error (.duplicateKey key)
    else do
      let preds := m.raise h found.2
      let links <- (List.range h).mapM (m.loadPred preds)
      let grown := m.grow { key := key, value := value, next := links } h
      let linked <- (List.range h).foldlM (storePred m.nodes.length preds) grown
      .ok
        { linked with
          size := m.size + (key.length + value.length) + nodeOverhead + h * ptrSize }

/-- `MemTable.Get`; the seek key has the largest kind. -/
def get (m : Skiplist) (uk : Bytes) (seq : Nat) : Except SkipFault (Option (Bytes × Kind)) :=
  if maxSeq < seq then .error (.seqExceeds seq)
  else do
    let found <- m.findGE (appendInternalKey uk seq .put)
    found.1.elim (.ok none) fun i => do
      let ik <- (decodeInternalKey (m.pairAt i).key).mapError .corruptKey
      if ik.userKey ≠ uk then .ok none else .ok (some ((m.pairAt i).value, ik.kind))

/-!
## Lists in order
-/

def heightOf (m : Skiplist) (i : Nat) : Nat :=
  m.nodes[i]?.elim 0 fun n => n.next.length

def onLevel (m : Skiplist) (level : Nat) (ids : List Nat) : List Nat :=
  ids.filter fun i => level < m.heightOf i

def byKey (m : Skiplist) (i j : Nat) : Ordering :=
  compareKeys (m.pairAt i).key (m.pairAt j).key

instance (m : Skiplist) : TransCmp m.byKey where
  eq_swap := fun {i j} => @OrientedCmp.eq_swap Bytes compareKeys _ (m.pairAt i).key (m.pairAt j).key
  isLE_trans := fun {i j k} =>
    @TransCmp.isLE_trans Bytes compareKeys _ (m.pairAt i).key (m.pairAt j).key (m.pairAt k).key

/-- The nodes in the order of their keys; every level has those that are high
enough. -/
structure Ordered (m : Skiplist) (ids : List Nat) : Prop where
  headLength : m.head.length = maxHeight
  heightPos : 1 ≤ m.height
  heightLe : m.height ≤ maxHeight
  mem : forall i, i ∈ ids <-> i < m.nodes.length
  heights : forall i, i ∈ ids -> 1 ≤ m.heightOf i ∧ m.heightOf i ≤ m.height
  ascending : Ascending m.byKey ids
  chain : forall level, level < maxHeight -> Chain (m.load level) none (m.onLevel level ids)

theorem ordered_new : ({} : Skiplist).Ordered [] where
  headLength := List.length_replicate
  heightPos := Nat.le_refl _
  heightLe := by decide
  mem := fun i => Iff.intro (fun h => absurd h List.not_mem_nil) (fun h => absurd h (Nat.not_lt_zero i))
  heights := fun i h => absurd h List.not_mem_nil
  ascending := List.Pairwise.nil
  chain := fun level h => by
    show (List.replicate maxHeight none)[level]? = some none
    rw [List.getElem?_replicate, if_pos h]

variable {m : Skiplist} {ids lower upper : List Nat} {key : Bytes}

/-- The nodes are cut where the keys reach a key. -/
structure CutAt (m : Skiplist) (key : Bytes) (ids lower upper : List Nat) : Prop where
  eq : ids = lower ++ upper
  lower : forall i, i ∈ lower -> m.before key (some i) = true
  upper : forall i, i ∈ upper -> m.before key (some i) = false

theorem Ordered.exists_cut (h : m.Ordered ids) (key : Bytes) :
    exists lower upper, m.CutAt key ids lower upper := by
  have hup : Upward m.byKey fun i => !m.before key (some i) := by
    intro i j hij hi
    simp only [Bool.not_eq_true'] at hi ⊢
    by_contra hj
    have hlt : compareKeys (m.pairAt j).key key = .lt :=
      Ordering.isLT_iff_eq_lt.mp (Bool.eq_true_of_not_eq_false hj)
    have htrans : compareKeys (m.pairAt i).key key = .lt := TransCmp.lt_trans hij hlt
    have hbefore : m.before key (some i) = true := Ordering.isLT_iff_eq_lt.mpr htrans
    rw [hbefore] at hi
    cases hi
  rcases h.ascending.eq_append hup with ⟨lower, upper, heq, hlower, hupper⟩
  refine ⟨lower, upper, heq, fun i hi => ?_, fun i hi => ?_⟩
  · have hno := hlower i hi
    simpa using hno
  · have hyes := hupper i hi
    simpa using hyes

/-!
## The search
-/

theorem onLevel_append (level : Nat) (is js : List Nat) :
    m.onLevel level (is ++ js) = m.onLevel level is ++ m.onLevel level js :=
  List.filter_append is js

theorem onLevel_zero (h : m.Ordered ids) {is : List Nat} (hsub : is ⊆ ids) :
    m.onLevel 0 is = is :=
  List.filter_eq_self.mpr fun i hi => decide_eq_true (h.heights i (hsub hi)).left

theorem getLast?_onLevel {level : Nat} {is : List Nat}
    (h : forall i, is.getLast? = some i -> level < m.heightOf i) :
    (m.onLevel level is).getLast? = is.getLast? := by
  rcases List.eq_nil_or_concat is with rfl | ⟨init, last, rfl⟩
  · rfl
  · rw [List.concat_eq_append] at h ⊢
    have hlast : level < m.heightOf last := h last (by rw [List.getLast?_append]; rfl)
    have hone : m.onLevel level [last] = [last] :=
      List.filter_cons_of_pos (decide_eq_true hlast)
    rw [onLevel_append, hone, List.getLast?_append, List.getLast?_append]
    rfl

theorem Ordered.chain_after (h : m.Ordered ids) {level : Nat} (hlevel : level < maxHeight)
    {is js : List Nat} (heq : ids = is ++ js)
    (hlast : forall i, is.getLast? = some i -> level < m.heightOf i) :
    Chain (m.load level) is.getLast? (m.onLevel level js) := by
  have hall := h.chain level hlevel
  rw [heq, onLevel_append] at hall
  have hafter := hall.after
  rw [lastPlace_none, getLast?_onLevel hlast] at hafter
  exact hafter

/-- The search finds the first node that is not before the key, and goes down
behind the last ones before it. -/
theorem findLoop_spec (h : m.Ordered ids) (hcut : m.CutAt key ids lower upper) {fuel level : Nat}
    {done rest : List Nat} (preds : Preds) (hdone : lower = done ++ rest)
    (hlast : forall i, done.getLast? = some i -> level < m.heightOf i)
    (hlevel : level < maxHeight) (hfuel : rest.length + level < fuel) :
    exists preds', m.findLoop key fuel done.getLast? level preds = .ok (upper.head?, preds') ∧
      (forall j, j ≤ level -> preds' j = some (m.onLevel j lower).getLast?) ∧
      forall j, level < j -> preds' j = preds j := by
  induction fuel generalizing level done rest preds with
  | zero => exact absurd hfuel (Nat.not_lt_zero _)
  | succ fuel ih =>
      have hids : ids = done ++ (rest ++ upper) := by
        rw [hcut.eq, hdone, List.append_assoc]
      have hchain := h.chain_after hlevel hids hlast
      rw [onLevel_append] at hchain
      cases hrest : m.onLevel level rest with
      | nil =>
          -- Nothing before the key is left on this level.
          rw [hrest, List.nil_append] at hchain
          have hstop : m.before key (m.onLevel level upper).head? = false := by
            cases hhead : (m.onLevel level upper).head? with
            | none => rfl
            | some i =>
                have hi : i ∈ m.onLevel level upper := List.mem_of_mem_head? hhead
                exact hcut.upper i (List.mem_of_mem_filter hi)
          have hpred : (m.onLevel level lower).getLast? = done.getLast? := by
            rw [hdone, onLevel_append, hrest, List.append_nil, getLast?_onLevel hlast]
          cases level with
          | zero =>
              have hempty : rest = [] := by
                rw [onLevel_zero h] at hrest
                · exact hrest
                · intro i hi
                  rw [hids]
                  exact List.mem_append_right done (List.mem_append_left upper hi)
              have hupper : m.onLevel 0 upper = upper := by
                apply onLevel_zero h
                intro i hi
                rw [hcut.eq]
                exact List.mem_append_right lower hi
              rw [hupper] at hchain hstop
              refine ⟨Function.update preds 0 (some done.getLast?), ?_, ?_, ?_⟩
              · unfold findLoop
                rw [hchain.next]
                dsimp only
                rw [hstop]
                rfl
              · intro j hj
                cases Nat.le_zero.mp hj
                rw [Function.update_self, hpred]
              · intro j hj
                exact Function.update_of_ne (Nat.ne_of_gt hj) _ _
          | succ level =>
              rcases ih (Function.update preds (level + 1) (some done.getLast?)) hdone
                (fun i hi => Nat.lt_of_succ_lt (hlast i hi)) (Nat.lt_of_succ_lt hlevel)
                (by lia) with ⟨preds', hfind, hset, hkept⟩
              refine ⟨preds', ?_, ?_, ?_⟩
              · unfold findLoop
                rw [hchain.next]
                dsimp only
                rw [hstop]
                exact hfind
              · intro j hj
                rcases Nat.lt_or_ge j (level + 1) with hlt | hge
                · exact hset j (Nat.le_of_lt_succ hlt)
                · obtain rfl : j = level + 1 := Nat.le_antisymm hj hge
                  rw [hkept (level + 1) (Nat.lt_succ_self _), Function.update_self, hpred]
              · intro j hj
                rw [hkept j (by lia)]
                exact Function.update_of_ne (Nat.ne_of_gt hj) _ _
      | cons i later =>
          -- The next node on this level is before the key, and the search moves on.
          rcases List.filter_eq_cons_iff.mp hrest with ⟨skipped, rest', heq, _, hi, _⟩
          have hmem : i ∈ lower := by
            rw [hdone, heq]
            simp
          have hdone' : lower = (done ++ (skipped ++ [i])) ++ rest' := by
            rw [hdone, heq]
            simp
          have hplace : (done ++ (skipped ++ [i])).getLast? = some i := by
            rw [← List.append_assoc, List.getLast?_append]
            rfl
          have hshort : rest'.length < rest.length := by
            rw [heq, List.length_append, List.length_cons]
            lia
          rcases ih preds hdone' (fun j hj => by
              rw [hplace] at hj
              cases hj
              exact of_decide_eq_true hi) hlevel (by lia) with ⟨preds', hfind, hset, hkept⟩
          rw [hplace] at hfind
          refine ⟨preds', ?_, hset, hkept⟩
          unfold findLoop
          rw [hrest] at hchain
          rw [hchain.next]
          dsimp only [List.cons_append, List.head?_cons]
          rw [if_pos (hcut.lower i hmem)]
          exact hfind

theorem Ordered.length_eq (h : m.Ordered ids) : ids.length = m.nodes.length := by
  have hperm : ids.Perm (List.range m.nodes.length) := by
    apply (List.perm_ext_iff_of_nodup h.ascending.nodup List.nodup_range).mpr
    intro i
    rw [h.mem, List.mem_range]
  rw [hperm.length_eq, List.length_range]

theorem findFrom_spec (h : m.Ordered ids) (hcut : m.CutAt key ids lower upper) {level : Nat}
    (hlevel : level < maxHeight) :
    exists preds, m.findFrom key level = .ok (upper.head?, preds) ∧
      forall j, j ≤ level -> preds j = some (m.onLevel j lower).getLast? := by
  have hlen : lower.length ≤ m.nodes.length := by
    rw [← h.length_eq, hcut.eq, List.length_append]
    exact Nat.le_add_right _ _
  have hnone : forall i, ([] : List Nat).getLast? = some i -> level < m.heightOf i :=
    fun i hi => by cases hi
  rcases findLoop_spec h hcut (fun _ => none) (List.nil_append lower).symm hnone hlevel
    (by lia : lower.length + level < m.nodes.length + level + 1) with ⟨preds, hfind, hset, _⟩
  exact ⟨preds, hfind, hset⟩

theorem findGE_spec (h : m.Ordered ids) (hcut : m.CutAt key ids lower upper) :
    exists preds, m.findGE key = .ok (upper.head?, preds) ∧
      forall j, j < m.height -> preds j = some (m.onLevel j lower).getLast? := by
  have hpos := h.heightPos
  have hle := h.heightLe
  rcases findFrom_spec h hcut (by lia : m.height - 1 < maxHeight) with ⟨preds, hfind, hset⟩
  exact ⟨preds, hfind, fun j hj => hset j (by lia)⟩

end Skiplist

end Engine
end Basalt
