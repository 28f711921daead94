import Basalt.Engine.Records
import Basalt.Shard.Map

/-!
# Copying a slot

`CopySlot` scans a checkpoint of the source group and proposes the keys of one
slot into the destination, in batches.  A call that fails returns the last key
it knows to be committed there, and the next call resumes behind it.
-/

namespace Basalt
namespace Cluster

open Lib Wal Engine Shard Std

/-!
## The scan
-/

def scanFrom (snap : Store) (start : Bytes) : List (Bytes × Bytes) :=
  snap.toList.filter fun x => (compare start x.1).isLE && !decide (Reserved x.1)

/-- The smallest key greater than `after`; an empty cursor means the start. -/
def resumeKey (after : Bytes) : Bytes :=
  if after.length > 0 then after ++ [0x00] else after

/-!
## One call
-/

def migrateBatch : Nat := 512

/-- How a proposal into the destination ends.  One that is reported as failed
may still have been applied. -/
inductive Proposal where
  | committed
  | failed (applied : Bool)
deriving DecidableEq, Repr

structure Copying where
  dst : Store
  seq : Nat := 0
  batch : List Op := []
  inBatch : Nat := 0
  /-- The last key accumulated but not yet committed. -/
  pendingLast : Bytes := []
  lastKey : Bytes := []
  copied : Nat := 0

namespace Copying

/-- Proposes what has accumulated, and tells whether that succeeded. -/
def propose (outcome : Nat -> Proposal) (s : Copying) : Copying × Bool :=
  if s.inBatch = 0 then (s, true)
  else
    let seq := s.seq + 1
    match outcome seq with
    | .failed applied =>
        let dst := if applied then s.dst.applyRaft s.batch else s.dst
        ({ s with seq := seq, dst := dst }, false)
    | .committed =>
        ({ s with
          dst := s.dst.applyRaft s.batch
          seq := seq
          copied := s.copied + s.inBatch
          lastKey := s.pendingLast
          batch := []
          inBatch := 0 }, true)

def put (s : Copying) (x : Bytes × Bytes) : Copying :=
  { s with
    batch := s.batch ++ [.put x.1 x.2]
    inBatch := s.inBatch + 1
    pendingLast := x.1 }

def loop (slot : Slot) (outcome : Nat -> Proposal) :
    List (Bytes × Bytes) -> Copying -> Copying × Bool
  | [], s => (s, true)
  | x :: xs, s =>
      if keySlot x.1 ≠ slot then loop slot outcome xs s
      else if (s.put x).inBatch = migrateBatch then
        match (s.put x).propose outcome with
        | (s', true) => loop slot outcome xs s'
        | (s', false) => (s', false)
      else loop slot outcome xs (s.put x)

end Copying

/-- What the surroundings do to one call: an error before the scan (a lost
leadership, a failed barrier or checkpoint), the outcomes of its proposals, and
the number of keys after which the scan fails. -/
structure Call where
  refused : Bool := false
  outcome : Nat -> Proposal := fun _ => .committed
  scanError : Option Nat := none

structure Copied where
  dst : Store
  lastKey : Bytes := []
  copied : Nat := 0
  ok : Bool := false

def Copying.finish (s : Copying) (ok : Bool) : Copied where
  dst := s.dst
  lastKey := s.lastKey
  copied := s.copied
  ok := ok

def copySlot (src : Store) (slot : Slot) (call : Call) (dst : Store) (after : Bytes) : Copied :=
  if call.refused then { dst := dst }
  else
    let entries := scanFrom src (resumeKey after)
    match call.scanError with
    | some n =>
        ((Copying.loop slot call.outcome (entries.take n) { dst := dst }).1).finish false
    | none =>
        match Copying.loop slot call.outcome entries { dst := dst } with
        | (s, false) => s.finish false
        | (s, true) =>
            let r := s.propose call.outcome
            r.1.finish r.2

/-- Calls that resume each other, from the start of the slot. -/
def copySlots (src : Store) (slot : Slot) (dst : Store) (calls : List Call) : Copied :=
  calls.foldl (fun r call => copySlot src slot call r.dst r.lastKey) { dst := dst }

/-!
## What a copy writes
-/

section Fills

variable {src dst dst' dst'' : Store} {slot : Slot}

def Owned (src : Store) (slot : Slot) (x : Bytes × Bytes) : Prop :=
  src[x.1]? = some x.2 ∧ keySlot x.1 = slot ∧ ¬ Reserved x.1

/-- The destination changes only by entries of the slot, to their values in
the source. -/
def Fills (src : Store) (slot : Slot) (dst dst' : Store) : Prop :=
  forall key, dst'[key]? = dst[key]? ∨
    exists value, Owned src slot (key, value) ∧ dst'[key]? = some value

theorem Fills.refl (dst : Store) : Fills src slot dst dst := by
  intro key
  exact Or.inl rfl

theorem Fills.trans (h : Fills src slot dst dst') (h' : Fills src slot dst' dst'') :
    Fills src slot dst dst'' := by
  intro key
  rcases h' key with heq | hval
  · rw [heq]
    exact h key
  · exact Or.inr hval

theorem Fills.keeps (h : Fills src slot dst dst') {x : Bytes × Bytes}
    (hx : Owned src slot x) (hdst : dst[x.1]? = some x.2) : dst'[x.1]? = some x.2 := by
  rcases h x.1 with heq | ⟨value, hvalue, heq⟩
  · rw [heq]
    exact hdst
  · have hsame : some value = some x.2 := by rw [← hvalue.left, ← hx.left]
    rw [heq]
    exact hsame

theorem fills_insert {x : Bytes × Bytes} (hx : Owned src slot x) (dst : Store) :
    Fills src slot dst (dst.insert x.1 x.2) := by
  intro key
  rcases eq_or_ne key x.1 with rfl | hne
  · exact Or.inr ⟨x.2, hx, ExtTreeMap.getElem?_insert_self⟩
  · exact Or.inl (getElem?_insert_of_ne hne.symm)

theorem fills_applyRaft {l : List (Bytes × Bytes)} (h : forall x, x ∈ l -> Owned src slot x)
    (dst : Store) :
    Fills src slot dst (dst.applyRaft (l.map fun x => .put x.1 x.2)) ∧
      forall x, x ∈ l -> (dst.applyRaft (l.map fun x => .put x.1 x.2))[x.1]? = some x.2 := by
  induction l generalizing dst with
  | nil => exact ⟨Fills.refl dst, fun x hx => (by cases hx)⟩
  | cons y l ih =>
      have hy := h y List.mem_cons_self
      rcases ih (fun x hx => h x (List.mem_cons_of_mem y hx)) (dst.insert y.1 y.2) with
        ⟨hfills, hheld⟩
      constructor
      · exact (fills_insert hy dst).trans hfills
      · intro x hx
        rcases List.mem_cons.mp hx with rfl | hx
        · exact hfills.keeps hy ExtTreeMap.getElem?_insert_self
        · exact hheld x hx

end Fills

/-!
## The loop
-/

def lastOf (l : List (Bytes × Bytes)) : Bytes :=
  (l.getLast?.map Prod.fst).getD []

namespace Copying

section Loop

variable {src dst : Store} {slot : Slot} {outcome : Nat -> Proposal} {s s' : Copying}
  {done pend : List (Bytes × Bytes)} {ok : Bool}

/-- The entries `done` are committed in the destination, and the cursor is the
last of them. -/
structure Trails (src : Store) (slot : Slot) (dst : Store) (done : List (Bytes × Bytes))
    (s : Copying) : Prop where
  fills : Fills src slot dst s.dst
  owned : forall x, x ∈ done -> Owned src slot x
  held : forall x, x ∈ done -> s.dst[x.1]? = some x.2
  lastKey : s.lastKey = lastOf done

structure Loaded (src : Store) (slot : Slot) (pend : List (Bytes × Bytes)) (s : Copying) :
    Prop where
  owned : forall x, x ∈ pend -> Owned src slot x
  batch : s.batch = pend.map fun x => .put x.1 x.2
  inBatch : s.inBatch = pend.length
  pendingLast : pend ≠ [] -> s.pendingLast = lastOf pend

theorem lastOf_append {l l' : List (Bytes × Bytes)} (h : l' ≠ []) :
    lastOf (l ++ l') = lastOf l' := by
  unfold lastOf
  rw [List.getLast?_append_of_ne_nil l h]

theorem Trails.fill (h : Trails src slot dst done s) {db : Store}
    (hdb : Fills src slot s.dst db) (seq : Nat) :
    Trails src slot dst done { s with seq := seq, dst := db } where
  fills := h.fills.trans hdb
  owned := h.owned
  held := fun x hx => hdb.keeps (h.owned x hx) (h.held x hx)
  lastKey := h.lastKey

theorem Trails.propose (h : Trails src slot dst done s) (hl : Loaded src slot pend s)
    (hr : s.propose outcome = (s', ok)) :
    (ok = true ∧ Trails src slot dst (done ++ pend) s' ∧ Loaded src slot [] s') ∨
      (ok = false ∧ Trails src slot dst done s') := by
  have hwrite := fills_applyRaft hl.owned s.dst
  rw [← hl.batch] at hwrite
  unfold Copying.propose at hr
  split at hr
  · rename_i hzero
    cases hr
    have hnil : pend = [] := List.length_eq_zero_iff.mp (hl.inBatch.symm.trans hzero)
    subst hnil
    rw [List.append_nil]
    exact Or.inl ⟨rfl, h, hl⟩
  · rename_i hpos
    have hne : pend ≠ [] := by
      rintro rfl
      exact hpos hl.inBatch
    dsimp only at hr
    cases hout : outcome (s.seq + 1) with
    | failed applied =>
        rw [hout] at hr
        cases hr
        right
        constructor
        · rfl
        · apply h.fill
          split
          · exact hwrite.left
          · exact Fills.refl _
    | committed =>
        rw [hout] at hr
        cases hr
        left
        refine ⟨rfl, ⟨h.fills.trans hwrite.left, ?_, ?_, ?_⟩, ⟨fun x hx => (by cases hx), rfl,
          rfl, fun hnil => absurd rfl hnil⟩⟩
        · intro x hx
          rcases List.mem_append.mp hx with hx | hx
          · exact h.owned x hx
          · exact hl.owned x hx
        · intro x hx
          rcases List.mem_append.mp hx with hx | hx
          · exact hwrite.left.keeps (h.owned x hx) (h.held x hx)
          · exact hwrite.right x hx
        · rw [lastOf_append hne]
          exact hl.pendingLast hne

theorem Loaded.put (h : Loaded src slot pend s) {x : Bytes × Bytes} (hx : Owned src slot x) :
    Loaded src slot (pend ++ [x]) (s.put x) where
  owned := by
    intro y hy
    rcases List.mem_append.mp hy with hy | hy
    · exact h.owned y hy
    · rw [List.mem_singleton.mp hy]
      exact hx
  batch := by
    rw [List.map_append, ← h.batch]
    rfl
  inBatch := by
    rw [List.length_append, ← h.inBatch]
    rfl
  pendingLast := by
    intro _
    rw [lastOf_append (List.cons_ne_nil x [])]
    rfl

/-- The loop splits the entries of the slot into those that are committed and
the rest, and the rest is in the batch when it comes to its end. -/
theorem Trails.loop {xs : List (Bytes × Bytes)} (h : Trails src slot dst done s)
    (hl : Loaded src slot pend s)
    (hxs : forall x, x ∈ xs -> keySlot x.1 = slot -> Owned src slot x)
    (hr : Copying.loop slot outcome xs s = (s', ok)) :
    exists done' rest, done ++ (pend ++ xs.filter fun x => keySlot x.1 = slot) = done' ++ rest ∧
      Trails src slot dst done' s' ∧ (ok = true -> Loaded src slot rest s') := by
  induction xs generalizing done pend s with
  | nil =>
      cases hr
      refine ⟨done, pend, ?_, h, fun _ => hl⟩
      simp
  | cons x xs ih =>
      have hrest := fun y hy => hxs y (List.mem_cons_of_mem x hy)
      unfold Copying.loop at hr
      split at hr
      · rename_i hslot
        rw [List.filter_cons_of_neg (by simpa using hslot)]
        exact ih h hl hrest hr
      · rename_i hslot
        have hslot := not_not.mp hslot
        have hput := hl.put (hxs x List.mem_cons_self hslot)
        have htrails : Trails src slot dst done (s.put x) := ⟨h.fills, h.owned, h.held, h.lastKey⟩
        have hsplit : done ++ (pend ++ (x :: xs).filter fun x => keySlot x.1 = slot) =
            done ++ ((pend ++ [x]) ++ xs.filter fun x => keySlot x.1 = slot) := by
          rw [List.filter_cons_of_pos (by simpa using hslot), List.append_cons]
        rw [hsplit]
        split at hr
        · cases hp : (s.put x).propose outcome with
          | mk mid good =>
              rw [hp] at hr
              rcases htrails.propose hput hp with ⟨rfl, hmid, hempty⟩ | ⟨rfl, hmid⟩
              · rcases ih hmid hempty hrest hr with ⟨done', rest, heq, hdone, hload⟩
                refine ⟨done', rest, ?_, hdone, hload⟩
                rw [← heq]
                simp
              · cases hr
                exact ⟨done, _, rfl, hmid, fun hok => (by cases hok)⟩
        · exact ih htrails hput hrest hr

end Loop

end Copying

/-!
## The calls
-/

section Calls

variable {src dst : Store} {slot : Slot} {after : Bytes}

theorem mem_scanFrom {start : Bytes} {x : Bytes × Bytes} :
    x ∈ scanFrom src start <->
      src[x.1]? = some x.2 ∧ (compare start x.1).isLE ∧ ¬ Reserved x.1 := by
  rw [scanFrom, List.mem_filter, ExtTreeMap.mem_toList_iff_getElem?_eq_some]
  simp

theorem pairwise_scanFrom (src : Store) (start : Bytes) :
    (scanFrom src start).Pairwise fun x y => compare x.1 y.1 = .lt :=
  ExtTreeMap.ordered_keys_toList.filter _

theorem isLE_resumeKey {key : Bytes} (h : after ≠ []) :
    (compare (resumeKey after) key).isLE <-> (compare after key).isLT := by
  have hleast : forall c : UInt8, (compare 0 c).isLE := by
    intro c
    rw [Std.isLE_compare]
    exact UInt8.zero_le
  rw [resumeKey, if_pos (List.length_pos_of_ne_nil h)]
  exact compare_append_least hleast

/-- Every entry of the slot up to the cursor is in the destination. -/
def UpTo (src : Store) (slot : Slot) (dst : Store) (after : Bytes) : Prop :=
  forall x, Owned src slot x -> after ≠ [] -> (compare x.1 after).isLE ->
    dst[x.1]? = some x.2

theorem mem_scanFrom_of_owned {x : Bytes × Bytes} (hx : Owned src slot x)
    (h : ¬ (after ≠ [] ∧ (compare x.1 after).isLE)) :
    x ∈ scanFrom src (resumeKey after) := by
  refine mem_scanFrom.mpr ⟨hx.left, ?_, hx.right.right⟩
  rcases eq_or_ne after [] with rfl | hne
  · rw [resumeKey, if_neg (by simp)]
    cases x.1 with
    | nil | cons b key => rfl
  · rw [isLE_resumeKey hne]
    cases hcmp : compare after x.1 with
    | lt => rfl
    | eq =>
        rw [OrientedCmp.eq_symm hcmp] at h
        exact absurd ⟨hne, rfl⟩ h
    | gt =>
        rw [OrientedCmp.lt_of_gt hcmp] at h
        exact absurd ⟨hne, rfl⟩ h

theorem owned_of_mem {x : Bytes × Bytes} (hx : x ∈ scanFrom src (resumeKey after))
    (hslot : keySlot x.1 = slot) : Owned src slot x :=
  have h := mem_scanFrom.mp hx
  ⟨h.left, hslot, h.right.right⟩

section Call

variable {s : Copying} {done rest : List (Bytes × Bytes)}

theorem upTo_of_trails (h : UpTo src slot dst after) (ht : s.Trails src slot dst done)
    (hsplit : (scanFrom src (resumeKey after)).filter (fun x => keySlot x.1 = slot) =
      done ++ rest) : UpTo src slot s.dst s.lastKey := by
  intro x hx hne hle
  by_cases hold : after ≠ [] ∧ (compare x.1 after).isLE
  · exact ht.fills.keeps hx (h x hx hold.left hold.right)
  · have hmem : x ∈ done ++ rest := by
      rw [← hsplit, List.mem_filter]
      exact ⟨mem_scanFrom_of_owned hx hold, by simpa using hx.right.left⟩
    rcases List.mem_append.mp hmem with hdone | hrest
    · exact ht.held x hdone
    · have hsorted := (pairwise_scanFrom src (resumeKey after)).filter
        (fun x => keySlot x.1 = slot)
      rw [hsplit, List.pairwise_append] at hsorted
      rw [ht.lastKey] at hne hle
      cases hlast : done.getLast? with
      | none =>
          rw [lastOf, hlast] at hne
          exact absurd rfl hne
      | some y =>
          have hlt := hsorted.right.right y (List.mem_of_getLast? hlast) x hrest
          rw [lastOf, hlast] at hle
          have hgt : compare x.1 y.1 = .gt := OrientedCmp.gt_of_lt hlt
          rw [show (Option.map Prod.fst (some y)).getD [] = y.1 from rfl, hgt] at hle
          cases hle

/-- All that was not copied before is copied by a call that comes to its end. -/
theorem complete_of_trails (h : UpTo src slot dst after) (ht : s.Trails src slot dst done)
    (hsplit : (scanFrom src (resumeKey after)).filter (fun x => keySlot x.1 = slot) = done)
    {x : Bytes × Bytes} (hx : Owned src slot x) : s.dst[x.1]? = some x.2 := by
  by_cases hold : after ≠ [] ∧ (compare x.1 after).isLE
  · exact ht.fills.keeps hx (h x hx hold.left hold.right)
  · apply ht.held
    rw [← hsplit, List.mem_filter]
    exact ⟨mem_scanFrom_of_owned hx hold, by simpa using hx.right.left⟩

end Call

theorem trails_start (src : Store) (slot : Slot) (dst : Store) :
    Copying.Trails src slot dst [] { dst := dst } where
  fills := Fills.refl dst
  owned := fun x hx => (by cases hx)
  held := fun x hx => (by cases hx)
  lastKey := rfl

theorem loaded_start (src : Store) (slot : Slot) (dst : Store) :
    Copying.Loaded src slot [] { dst := dst } where
  owned := fun x hx => (by cases hx)
  batch := rfl
  inBatch := rfl
  pendingLast := fun h => absurd rfl h

/-- What calls that started from `dst` have returned: another call can resume
from there, and there is no need to after a success. -/
structure Resumes (src : Store) (slot : Slot) (dst : Store) (r : Copied) : Prop where
  fills : Fills src slot dst r.dst
  upTo : UpTo src slot r.dst r.lastKey
  complete : r.ok = true -> forall x, Owned src slot x -> r.dst[x.1]? = some x.2

theorem resumes_failed {s : Copying} {done rest : List (Bytes × Bytes)}
    (h : UpTo src slot dst after) (ht : s.Trails src slot dst done)
    (hsplit : (scanFrom src (resumeKey after)).filter (fun x => keySlot x.1 = slot) =
      done ++ rest) : Resumes src slot dst (s.finish false) where
  fills := ht.fills
  upTo := upTo_of_trails h ht hsplit
  complete := fun hok => (by cases hok)

theorem resumes_copySlot (h : UpTo src slot dst after) (call : Call) :
    Resumes src slot dst (copySlot src slot call dst after) := by
  unfold copySlot
  split
  · exact ⟨Fills.refl dst, fun x _ hne => absurd rfl hne, fun hok => (by cases hok)⟩
  · dsimp only
    cases call.scanError with
    | some n =>
        dsimp only
        cases hr : Copying.loop slot call.outcome
            ((scanFrom src (resumeKey after)).take n) { dst := dst } with
        | mk s ok =>
            rcases (trails_start src slot dst).loop (loaded_start src slot dst)
              (fun x hx => owned_of_mem (List.mem_of_mem_take hx)) hr with
              ⟨done, rest, hsplit, ht, _⟩
            have hall : (scanFrom src (resumeKey after)).filter (fun x => keySlot x.1 = slot) =
                done ++ (rest ++ ((scanFrom src (resumeKey after)).drop n).filter
                  fun x => keySlot x.1 = slot) := by
              rw [← List.append_assoc, ← hsplit, List.nil_append, List.nil_append,
                ← List.filter_append, List.take_append_drop]
            exact resumes_failed h ht hall
    | none =>
        dsimp only
        cases hr : Copying.loop slot call.outcome (scanFrom src (resumeKey after))
            { dst := dst } with
        | mk s ok =>
            rcases (trails_start src slot dst).loop (loaded_start src slot dst)
              (fun x hx => owned_of_mem hx) hr with ⟨done, rest, hsplit, ht, hl⟩
            rw [List.nil_append, List.nil_append] at hsplit
            cases ok with
            | false => exact resumes_failed h ht hsplit
            | true =>
                dsimp only
                cases hp : s.propose call.outcome with
                | mk s' good =>
                    rcases ht.propose (hl rfl) hp with ⟨rfl, ht', _⟩ | ⟨rfl, ht'⟩
                    · have hall := hsplit.trans (List.append_nil _).symm
                      exact ⟨ht'.fills, upTo_of_trails h ht' hall,
                        fun _ x hx => complete_of_trails h ht' hsplit hx⟩
                    · exact resumes_failed h ht' hsplit

theorem resumes_copySlots (calls : List Call) {r : Copied} (h : Resumes src slot dst r) :
    Resumes src slot dst
      (calls.foldl (fun r call => copySlot src slot call r.dst r.lastKey) r) := by
  induction calls generalizing r with
  | nil => exact h
  | cons call calls ih =>
      apply ih
      have hcall := resumes_copySlot h.upTo call
      exact ⟨h.fills.trans hcall.fills, hcall.upTo, hcall.complete⟩

end Calls

/-- Calls that resume each other until one succeeds have copied every key of
the slot, and nothing else. -/
theorem copySlots_complete (src dst : Store) (slot : Slot) (calls : List Call)
    (hok : (copySlots src slot dst calls).ok = true) :
    (forall key value, src[key]? = some value -> keySlot key = slot -> ¬ Reserved key ->
        (copySlots src slot dst calls).dst[key]? = some value) ∧
      forall key, (copySlots src slot dst calls).dst[key]? ≠ dst[key]? ->
        keySlot key = slot ∧ ¬ Reserved key := by
  have hstart : Resumes src slot dst { dst := dst } :=
    ⟨Fills.refl dst, fun x _ hne => absurd rfl hne, fun h => (by cases h)⟩
  have h : Resumes src slot dst (copySlots src slot dst calls) :=
    resumes_copySlots calls hstart
  constructor
  · intro key value hkey hslot hfree
    exact h.complete hok (key, value) ⟨hkey, hslot, hfree⟩
  · intro key hne
    rcases h.fills key with heq | ⟨value, hvalue, _⟩
    · exact absurd heq hne
    · exact hvalue.right

/-- Keys of one slot: the checksum is linear, and the basis does not change the slot. -/
def slotKey (i : Nat) : Bytes :=
  let basis := [0x5d, 0x2be, 0x58d, 0x908, 0x10ae, 0x21ad, 0x4115, 0x802e, 0x10038, 0x2002d]
  let n := basis.zipIdx.foldl (fun n x => if i.testBit x.2 then n ^^^ x.1 else n) 0
  [UInt8.ofNat (n / 65536), UInt8.ofNat (n / 256), UInt8.ofNat n]

def fullSlot : Store :=
  (List.range 513).foldl (fun m i => m.insert (slotKey i) [9]) ∅

def oneBatch : Call where
  outcome := fun seq => if seq = 1 then .committed else .failed false

/-- The second call resumes behind the batch that the first one has committed. -/
theorem copySlots_complete_retried :
    (copySlots fullSlot 122 ∅ [oneBatch]).ok = false ∧
      (copySlots fullSlot 122 ∅ [oneBatch]).copied = 512 ∧
      (copySlots fullSlot 122 ∅ [oneBatch]).lastKey = slotKey 511 ∧
      (copySlots fullSlot 122 ∅ [oneBatch, {}]).copied = 1 ∧
      (copySlots fullSlot 122 ∅ [oneBatch, {}]).dst[slotKey 512]? = some [9] := by
  have hrun : (copySlots fullSlot 122 ∅ [oneBatch]).ok = false ∧
      (copySlots fullSlot 122 ∅ [oneBatch]).copied = 512 ∧
      (copySlots fullSlot 122 ∅ [oneBatch]).lastKey = slotKey 511 ∧
      (copySlots fullSlot 122 ∅ [oneBatch, {}]).copied = 1 ∧
      (copySlots fullSlot 122 ∅ [oneBatch, {}]).ok = true := by
    decide +kernel
  rcases hrun with ⟨hfailed, hbatch, hlast, hrest, hok⟩
  refine ⟨hfailed, hbatch, hlast, hrest, (copySlots_complete _ _ _ _ hok).left _ _ ?_ ?_ ?_⟩
  · rw [fullSlot, List.range_succ, List.foldl_append]
    exact ExtTreeMap.getElem?_insert_self
  · decide +kernel
  · decide +kernel

end Cluster
end Basalt
