import Basalt.Wal.Record
import Mathlib.Data.Fintype.Pi
import Mathlib.Logic.Function.Basic
import Mathlib.Logic.Relation

/-!
# Shard maps

A shard map assigns every hash slot to a group and marks the slots whose
writes are frozen for a handoff.  Maps are values: a change makes a copy with
the next epoch.
-/

namespace Basalt
namespace Shard

def numSlots : Nat := 256

abbrev Slot := Fin numSlots

def Slot.ofNat (n : Nat) : Slot :=
  ⟨n % numSlots, Nat.mod_lt n (Nat.succ_pos 255)⟩

instance (n : Nat) : OfNat Slot n :=
  ⟨Slot.ofNat n⟩

def keySlot (key : Lib.Bytes) : Slot :=
  Slot.ofNat (Wal.crcChecksum key).toNat

structure ShardMap where
  epoch : Nat
  slots : Slot -> Nat
  migrating : Slot -> Bool
deriving DecidableEq

namespace ShardMap

def group (m : ShardMap) (slot : Slot) : Nat :=
  m.slots slot

/-- The group that owns a key, or 0. -/
def lookup (m : ShardMap) (key : Lib.Bytes) : Nat :=
  m.slots (keySlot key)

def isMigrating (m : ShardMap) (slot : Slot) : Bool :=
  m.migrating slot

def isKeyMigrating (m : ShardMap) (key : Lib.Bytes) : Bool :=
  m.migrating (keySlot key)

def withMigrating (m : ShardMap) (slot : Slot) (migrating : Bool) : ShardMap :=
  { m with
    migrating := Function.update m.migrating slot migrating
    epoch := m.epoch + 1 }

/-- A copy with a slot reassigned, which ends its handoff. -/
def withSlot (m : ShardMap) (slot : Slot) (group : Nat) : ShardMap :=
  { m with
    slots := Function.update m.slots slot group
    migrating := Function.update m.migrating slot false
    epoch := m.epoch + 1 }

/-!
## Derived maps
-/

inductive Change where
  | freeze (slot : Slot) (value : Bool)
  | assign (slot : Slot) (group : Nat)

namespace Change

def target : Change -> Slot
  | .freeze slot _ => slot
  | .assign slot _ => slot

def apply (c : Change) (m : ShardMap) : ShardMap :=
  match c with
  | .freeze slot value => m.withMigrating slot value
  | .assign slot group => m.withSlot slot group

theorem epoch_apply (c : Change) (m : ShardMap) : (c.apply m).epoch = m.epoch + 1 := by
  cases c with
  | freeze slot value | assign slot group => rfl

theorem isMigrating_apply (c : Change) (m : ShardMap) {slot : Slot}
    (h : slot ≠ c.target) : (c.apply m).isMigrating slot = m.isMigrating slot := by
  cases c with
  | freeze s value | assign s group => exact Function.update_of_ne h _ _

end Change

def Derived : ShardMap -> ShardMap -> Prop :=
  Relation.ReflTransGen fun m m' => exists c : Change, m' = c.apply m

namespace Derived

variable {m m' m'' : ShardMap}

theorem refl (m : ShardMap) : Derived m m :=
  Relation.ReflTransGen.refl

theorem trans (h : Derived m m') (h' : Derived m' m'') : Derived m m'' :=
  Relation.ReflTransGen.trans h h'

theorem change (h : Derived m m') (c : Change) : Derived m (c.apply m') :=
  Relation.ReflTransGen.tail h ⟨c, rfl⟩

theorem epoch_le (h : Derived m m') : m.epoch ≤ m'.epoch := by
  induction h with
  | refl => exact Nat.le_refl _
  | tail _ hlast ih =>
      rcases hlast with ⟨c, rfl⟩
      rw [Change.epoch_apply]
      exact Nat.le_succ_of_le ih

theorem eq_of_epoch_le (h : Derived m m') (hle : m'.epoch ≤ m.epoch) : m' = m := by
  cases h with
  | refl => rfl
  | tail hinit hlast =>
      rcases hlast with ⟨c, rfl⟩
      have hle' := epoch_le hinit
      rw [Change.epoch_apply] at hle
      exact absurd hle (Nat.not_le.mpr (Nat.lt_succ_of_le hle'))

end Derived

end ShardMap

end Shard
end Basalt
