import Basalt.Lib.Versions
import Basalt.Engine.CompactionVisible
import Basalt.Engine.Core

/-!
# The history of the writes

The operations that were committed have consecutive sequence numbers.  As versions
of their keys they are what the memtables and the tables hold, and their effect on a
plain map is what the engine is to show.
-/

namespace Basalt
namespace Engine

open Lib Base Std Manifest Wal

/-!
## The plain map
-/

def applyOp (m : Bytes -> Option Bytes) : Op -> Bytes -> Option Bytes
  | .put userKey value => Function.update m userKey (some value)
  | .delete userKey => Function.update m userKey none

def opsOf (bs : List Batch) : List Op :=
  bs.flatMap Batch.ops

def mapOf (bs : List Batch) : Bytes -> Option Bytes :=
  (opsOf bs).foldl applyOp fun _ => none

@[simp]
theorem opsOf_append (bs bs' : List Batch) : opsOf (bs ++ bs') = opsOf bs ++ opsOf bs' :=
  List.flatMap_append

/-!
## Versions
-/

/-- The versions that operations leave, from a sequence number on. -/
def opPairs (seq : Nat) : List Op -> List Pair
  | [] => []
  | op :: ops => opPair seq op :: opPairs (seq + 1) ops

variable {seq : Nat} {op : Op} {ops ops' : List Op} {p q : Pair}

theorem opPairs_append (seq : Nat) (ops ops' : List Op) :
    opPairs seq (ops ++ ops') = opPairs seq ops ++ opPairs (seq + ops.length) ops' := by
  induction ops generalizing seq with
  | nil => rfl
  | cons op ops ih =>
      rw [List.cons_append, opPairs, opPairs, ih, List.cons_append, List.length_cons]
      congr 3
      lia

theorem mem_opPairs : p ∈ opPairs seq ops <->
    exists i op, ops[i]? = some op ∧ p = opPair (seq + i) op := by
  induction ops generalizing seq with
  | nil => simp [opPairs]
  | cons op ops ih =>
      rw [opPairs, List.mem_cons, ih]
      constructor
      · rintro (rfl | ⟨i, op', hi, rfl⟩)
        · exact ⟨0, op, rfl, rfl⟩
        · exact ⟨i + 1, op', hi, by rw [Nat.add_assoc, Nat.add_comm 1 i]⟩
      · rintro ⟨i, op', hi, rfl⟩
        cases i with
        | zero =>
            cases hi
            exact Or.inl rfl
        | succ i => exact Or.inr ⟨i, op', hi, by rw [Nat.add_assoc, Nat.add_comm 1 i]⟩

def opKind : Op -> Kind
  | .put _ _ => .put
  | .delete _ => .delete

theorem opPair_key (seq : Nat) (op : Op) :
    (opPair seq op).key = appendInternalKey op.userKey seq (opKind op) := by
  cases op with
  | put userKey value | delete userKey => rfl

theorem userKey_appendInternalKey (uk : Bytes) (seq : Nat) (kind : Kind) :
    userKey (appendInternalKey uk seq kind) = uk := by
  unfold userKey appendInternalKey
  rw [List.length_append, putLE_length, Nat.add_sub_cancel, List.take_left]

theorem trailer_appendInternalKey (uk : Bytes) {seq : Nat} (h : seq ≤ maxSeq) (kind : Kind) :
    trailer (appendInternalKey uk seq kind) = seq * 256 + kind.toByte.toNat := by
  have hbyte : kind.toByte.toNat < 256 := kind.toByte.toNat_lt
  have hrange : rangeLE trailerLen = 2 ^ 64 := by decide
  unfold trailer appendInternalKey
  rw [List.length_append, putLE_length, Nat.add_sub_cancel, List.drop_left]
  apply getLE_putLE
  rw [hrange]
  unfold maxSeq at h
  lia

theorem decode_appendInternalKey (uk : Bytes) {seq : Nat} (h : seq ≤ maxSeq) (kind : Kind) :
    decodeInternalKey (appendInternalKey uk seq kind) =
      .ok { userKey := uk, seq := seq, kind := kind } := by
  have hlen : ¬ (appendInternalKey uk seq kind).length < trailerLen := by
    unfold appendInternalKey
    rw [List.length_append, putLE_length]
    lia
  have hbyte : kind.toByte.toNat < 256 := kind.toByte.toNat_lt
  have hmod : (seq * 256 + kind.toByte.toNat) % 256 = kind.toByte.toNat := by lia
  have hdiv : (seq * 256 + kind.toByte.toNat) / 256 = seq := by lia
  unfold decodeInternalKey keySeq
  rw [if_neg hlen, trailer_appendInternalKey uk h, hmod, hdiv, userKey_appendInternalKey,
    UInt8.ofNat_toNat, Kind.ofByte?_toByte]

theorem userKey_opPair (seq : Nat) (op : Op) : (opPair seq op).userKey = op.userKey := by
  unfold Pair.userKey
  rw [opPair_key, userKey_appendInternalKey]

theorem trailer_opPair (h : seq ≤ maxSeq) :
    trailer (opPair seq op).key = seq * 256 + (opKind op).toByte.toNat := by
  rw [opPair_key, trailer_appendInternalKey _ h]

theorem seq_opPair (h : seq ≤ maxSeq) : (opPair seq op).seq = seq := by
  have hbyte : (opKind op).toByte.toNat < 256 := (opKind op).toByte.toNat_lt
  unfold Pair.seq keySeq
  rw [trailer_opPair h]
  lia

theorem decode_opPair (h : seq ≤ maxSeq) :
    decodeInternalKey (opPair seq op).key =
      .ok { userKey := op.userKey, seq := seq, kind := opKind op } := by
  rw [opPair_key, decode_appendInternalKey _ h]

theorem isTombstone_opPair (h : seq ≤ maxSeq) :
    (opPair seq op).IsTombstone <-> opKind op = .delete := by
  unfold Pair.IsTombstone
  rw [decode_opPair h]
  exact ⟨fun heq => Option.some.inj heq, fun heq => congrArg some heq⟩

theorem seq_of_mem_opPairs (hmax : seq + ops.length ≤ maxSeq + 1) (hp : p ∈ opPairs seq ops) :
    seq ≤ p.seq ∧ p.seq < seq + ops.length ∧ p.seq ≤ maxSeq := by
  rcases mem_opPairs.mp hp with ⟨i, op, hi, rfl⟩
  have hlt : i < ops.length := (List.getElem?_eq_some_iff.mp hi).1
  rw [seq_opPair (by lia)]
  lia

theorem decode_of_mem_opPairs (hmax : seq + ops.length ≤ maxSeq + 1) (hp : p ∈ opPairs seq ops) :
    exists ik, decodeInternalKey p.key = .ok ik := by
  rcases mem_opPairs.mp hp with ⟨i, op, hi, rfl⟩
  have hlt : i < ops.length := (List.getElem?_eq_some_iff.mp hi).1
  exact ⟨_, decode_opPair (by lia)⟩

/-!
## What is bound
-/

def Pair.time (p : Pair) : Nat :=
  trailer p.key

theorem later_of_seq {new l : List Pair}
    (h : forall p, p ∈ new -> forall q, q ∈ l -> q.seq < p.seq) :
    Later Pair.userKey Pair.time new l :=
  fun p hp q hq _ => trailer_lt_of_keySeq_lt (h p hp q hq)

theorem later_opPairs (hmax : seq + (ops ++ ops').length ≤ maxSeq + 1) :
    Later Pair.userKey Pair.time (opPairs (seq + ops.length) ops') (opPairs seq ops) := by
  rw [List.length_append] at hmax
  apply later_of_seq
  intro p hp q hq
  have hp := seq_of_mem_opPairs (by lia) hp
  have hq := seq_of_mem_opPairs (by lia) hq
  lia

abbrev Binds (l : List Pair) (k v : Bytes) : Prop :=
  Bound Pair.userKey Pair.time Pair.IsTombstone Pair.value l k v

/-- The versions of the operations bind what the plain map holds. -/
theorem binds_opPairs (hmax : seq + ops.length ≤ maxSeq + 1) (k v : Bytes) :
    Binds (opPairs seq ops) k v <-> (ops.foldl applyOp fun _ => none) k = some v := by
  induction ops using List.reverseRecOn with
  | nil =>
      constructor
      · rintro ⟨p, hp, _⟩
        cases hp.left
      · intro h
        cases h
  | append_singleton ops op ih =>
      rw [List.length_append, List.length_singleton] at hmax
      have hlater : Later Pair.userKey Pair.time (opPairs (seq + ops.length) [op])
          (opPairs seq ops) := by
        apply later_opPairs
        rw [List.length_append, List.length_singleton]
        exact hmax
      have hih := ih (by lia)
      have hseq : seq + ops.length ≤ maxSeq := by lia
      rw [opPairs_append, List.foldl_append]
      show Binds (opPairs seq ops ++ [opPair (seq + ops.length) op]) k v <-> _
      rw [Binds] at hih ⊢
      rw [bound_snoc hlater, userKey_opPair, isTombstone_opPair hseq, hih]
      show _ <-> applyOp _ op k = some v
      cases op with
      | put userKey value =>
          rcases Decidable.em (userKey = k) with rfl | hne
          · simp [applyOp, Op.userKey, opKind, opPair]
          · simp [applyOp, Op.userKey, hne, Ne.symm hne]
      | delete userKey =>
          rcases Decidable.em (userKey = k) with rfl | hne
          · simp [applyOp, Op.userKey, opKind]
          · simp [applyOp, Op.userKey, hne, Ne.symm hne]

/-!
## Memtables
-/

theorem insertPair_mem {l l' : List Pair} (h : insertPair p l = some l') (q : Pair) :
    q ∈ l' <-> q = p ∨ q ∈ l := by
  induction l generalizing l' with
  | nil =>
      cases h
      simp
  | cons a l ih =>
      unfold insertPair at h
      split at h
      · cases h
        rw [List.mem_cons]
      · cases h
      · rcases Option.map_eq_some_iff.mp h with ⟨rest, hrest, rfl⟩
        rw [List.mem_cons, List.mem_cons, ih hrest]
        constructor
        · rintro (h | h | h)
          · exact Or.inr (Or.inl h)
          · exact Or.inl h
          · exact Or.inr (Or.inr h)
        · rintro (h | h | h)
          · exact Or.inr (Or.inl h)
          · exact Or.inl h
          · exact Or.inr (Or.inr h)

theorem insertPair_ascending {l l' : List Pair} (h : insertPair p l = some l')
    (hl : Ascending Pair.compare l) : Ascending Pair.compare l' := by
  induction l generalizing l' with
  | nil =>
      cases h
      exact List.pairwise_singleton _ _
  | cons a l ih =>
      rcases List.pairwise_cons.mp hl with ⟨hfirst, hrest⟩
      unfold insertPair at h
      split at h
      · next hlt =>
          cases h
          apply List.pairwise_cons.mpr ⟨_, hl⟩
          intro b hb
          rcases List.mem_cons.mp hb with rfl | hb
          · exact hlt
          · exact TransCmp.lt_trans hlt (hfirst b hb)
      · cases h
      · next hgt =>
          rcases Option.map_eq_some_iff.mp h with ⟨rest, hins, rfl⟩
          apply List.pairwise_cons.mpr ⟨_, ih hins hrest⟩
          intro b hb
          rcases (insertPair_mem hins b).mp hb with rfl | hb
          · exact OrientedCmp.lt_of_gt hgt
          · exact hfirst b hb

/-- The memtable holds the versions of these operations. -/
structure MemTable.HoldsOps (m : MemTable) (seq : Nat) (ops : List Op) : Prop where
  ascending : Ascending Pair.compare m.pairs
  mem : forall q, q ∈ m.pairs <-> q ∈ opPairs seq ops
  empty : m.size = 0 <-> ops = []
  bounded : ops ≠ [] -> seq + ops.length ≤ maxSeq + 1

namespace MemTable.HoldsOps

theorem new (id seq : Nat) : HoldsOps { id := id } seq [] where
  ascending := List.Pairwise.nil
  mem := fun _ => Iff.rfl
  empty := ⟨fun _ => rfl, fun _ => rfl⟩
  bounded := fun h => absurd rfl h

variable {m m' : MemTable} {s : Nat}

theorem add (h : m.HoldsOps seq ops) {height : Fin maxHeight}
    (hadd : m.add (seq + ops.length) op height = .ok m') :
    m'.HoldsOps seq (ops ++ [op]) := by
  unfold MemTable.add at hadd
  dsimp only at hadd
  split at hadd
  · cases hadd
  · next hmax =>
      cases hins : insertPair (opPair (seq + ops.length) op) m.pairs with
      | none =>
          rw [hins] at hadd
          cases hadd
      | some pairs =>
          rw [hins] at hadd
          cases hadd
          constructor
          · exact insertPair_ascending hins h.ascending
          · intro q
            rw [insertPair_mem hins, h.mem, opPairs_append, List.mem_append]
            show _ <-> _ ∨ q ∈ [opPair (seq + ops.length) op]
            rw [List.mem_singleton, or_comm]
          · show m.size + _ + nodeOverhead + _ = 0 <-> _
            simp [nodeOverhead]
          · intro _
            rw [List.length_append, List.length_singleton]
            lia

theorem addAll (h : m.HoldsOps seq ops) {height : Nat -> Fin maxHeight}
    (hadd : m.addAll (seq + ops.length) height ops' = .ok m') : m'.HoldsOps seq (ops ++ ops') := by
  induction ops' generalizing m ops with
  | nil =>
      cases hadd
      rw [List.append_nil]
      exact h
  | cons op ops' ih =>
      unfold MemTable.addAll at hadd
      rcases bind_eq_ok.mp hadd with ⟨mid, hmid, hrest⟩
      have hlen : seq + ops.length + 1 = seq + (ops ++ [op]).length := by
        rw [List.length_append, List.length_singleton, Nat.add_assoc]
      rw [hlen] at hrest
      have hrec := ih (h.add hmid) hrest
      rw [List.append_assoc] at hrec
      exact hrec

end MemTable.HoldsOps

end Engine
end Basalt
