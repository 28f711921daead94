import Basalt.Lib.Bytes

/-!
# The Bloom filter of a table

`Get` of a table returns early when the filter excludes a key.  A filter that
`Finish` writes excludes none of the keys that were added, and no bytes that are
read as a filter make the test panic.
-/

namespace Basalt
namespace Table

open Lib

inductive BloomError where
  | overflow
  | makeslice
  | divideByZero
  | index (i length : Nat)
deriving DecidableEq, Repr

/-- The bits of a hash: `k` steps of double hashing. -/
def probesFrom (bits delta : UInt32) : Nat -> UInt32 -> List UInt32
  | 0, _ => []
  | k + 1, h => h % bits :: probesFrom bits delta k (h + delta)

def probes (bits : UInt32) (k : Nat) (h : UInt32) : List UInt32 :=
  probesFrom bits (h >>> 17 ||| h <<< 15) k h

def mask (bit : UInt32) : UInt8 :=
  1 <<< UInt8.ofNat (bit.toNat % 8)

def setBits : List UInt32 -> Bytes -> Except BloomError Bytes
  | [], filter => .ok filter
  | bit :: rest, filter =>
      let i := bit.toNat / 8
      if i < filter.length then setBits rest (filter.modify i (· ||| mask bit))
      else .error (.index i filter.length)

/-- The values of `int` and `uint64`: sums and products wrap around. -/
def wrapInt (x : Int) : Int :=
  x.bmod 18446744073709551616

def wrapUint64 (x : Int) : Nat :=
  (x % 18446744073709551616).toNat

def bloomBytes (keys : Nat) (bitsPerKey : Int) : Int :=
  let bits := wrapInt (keys * bitsPerKey)
  let bits := if bits < 64 then 64 else bits
  (wrapInt (bits + 7)).tdiv 8

/-- The number of probes is computed in floating point; `k` is what comes out before
it is clamped. -/
def buildBloom (hashes : List UInt32) (bitsPerKey : Int) (k : Nat) : Except BloomError Bytes :=
  let k := min 30 (max 1 k)
  match bloomBytes hashes.length bitsPerKey with
  | .negSucc _ => .error .makeslice
  | .ofNat nBytes =>
      let bits := UInt32.ofNat (nBytes * 8)
      if bits = 0 ∧ hashes ≠ [] then .error .divideByZero
      else setBits (hashes.flatMap (probes bits k)) (List.replicate nBytes 0 ++ [UInt8.ofNat k])

def finishBloom (hashes : List UInt32) (bitsPerKey : Int) (k : Nat) : Except BloomError Bytes :=
  let bits := wrapUint64 (hashes.length * bitsPerKey)
  if 4294967296 ≤ wrapUint64 (bits + 7) / 8 * 8 then .error .overflow
  else buildBloom hashes bitsPerKey k

def testBits (filter : Bytes) : List UInt32 -> Except BloomError Bool
  | [] => .ok true
  | bit :: rest =>
      match filter[bit.toNat / 8]? with
      | none => .error (.index (bit.toNat / 8) filter.length)
      | some b => if b &&& mask bit = 0 then .ok false else testBits filter rest

def bloomMayContain (filter : Bytes) (h : UInt32) : Except BloomError Bool :=
  if filter.length < 2 then .ok true
  else
    let nBytes := filter.length - 1
    let bits := UInt32.ofNat (nBytes * 8)
    let k := (filter[nBytes]?.getD 0).toNat
    if bits = 0 ∨ 30 < k then .ok true else testBits filter (probes bits k h)

variable {nBytes k : Nat} {filter : Bytes} {h bit c : UInt32} {bits : List UInt32}

theorem lt_of_mem_probesFrom {delta : UInt32} (hc : c ≠ 0) (hmem : bit ∈ probesFrom c delta k h) :
    bit.toNat < c.toNat := by
  induction k generalizing h with
  | zero => cases hmem
  | succ k ih =>
      rcases List.mem_cons.mp hmem with rfl | hmem
      · exact UInt32.lt_iff_toNat_lt.mp (UInt32.mod_lt h (UInt32.pos_iff_ne_zero.mpr hc))
      · exact ih hmem

theorem div_lt_of_mem_probes (hbits : UInt32.ofNat (nBytes * 8) ≠ 0)
    (hmem : bit ∈ probes (UInt32.ofNat (nBytes * 8)) k h) : bit.toNat / 8 < nBytes := by
  have hlt := lt_of_mem_probesFrom hbits hmem
  rw [UInt32.toNat_ofNat'] at hlt
  lia

theorem testBits_returns (hbits : forall bit, bit ∈ bits -> bit.toNat / 8 < filter.length) :
    exists r, testBits filter bits = .ok r := by
  induction bits with
  | nil => exact ⟨true, rfl⟩
  | cons bit bits ih =>
      rw [testBits, List.getElem?_eq_getElem (hbits bit List.mem_cons_self)]
      dsimp only
      split
      · exact ⟨false, rfl⟩
      · exact ih fun c hc => hbits c (List.mem_cons_of_mem bit hc)

/-- Whatever bytes stand for the filter, the test returns. -/
theorem bloomMayContain_returns (filter : Bytes) (h : UInt32) :
    exists r, bloomMayContain filter h = .ok r := by
  unfold bloomMayContain
  dsimp only
  split
  · exact ⟨true, rfl⟩
  · split
    · exact ⟨true, rfl⟩
    · next hguard =>
        apply testBits_returns
        intro bit hbit
        have hlt := div_lt_of_mem_probes (fun hzero => hguard (Or.inl hzero)) hbit
        lia

/-!
## No false negatives
-/

def Marked (filter : Bytes) (bit : UInt32) : Prop :=
  exists b, filter[bit.toNat / 8]? = some b ∧ b &&& mask bit ≠ 0

theorem mask_ne_zero (bit : UInt32) : mask bit ≠ 0 := by
  have hall : forall i, i < 8 -> (1 : UInt8) <<< UInt8.ofNat i ≠ 0 := by decide
  exact hall _ (Nat.mod_lt _ (by decide))

theorem or_and_ne_zero {a b m : UInt8} (h : a &&& m ≠ 0 ∨ b &&& m ≠ 0) : (a ||| b) &&& m ≠ 0 := by
  have hdist : (a ||| b) &&& m = (a &&& m) ||| (b &&& m) := by
    apply UInt8.toBitVec_inj.mp
    ext i hi
    simp [Bool.and_or_distrib_right]
  rw [hdist, ne_eq, UInt8.or_eq_zero_iff, not_and_or]
  exact h

theorem marked_modify (hlt : bit.toNat / 8 < filter.length) (hc : c = bit ∨ Marked filter c) :
    Marked (filter.modify (bit.toNat / 8) (· ||| mask bit)) c := by
  rcases hc with rfl | ⟨b, hb, hne⟩
  · refine ⟨filter[c.toNat / 8] ||| mask c, by simp [hlt], or_and_ne_zero (Or.inr ?_)⟩
    rw [UInt8.and_self]
    exact mask_ne_zero c
  · refine ⟨_, by rw [List.getElem?_modify, hb]; rfl, ?_⟩
    split
    · exact or_and_ne_zero (Or.inl hne)
    · exact hne

structure Marks (nBytes k : Nat) (filter : Bytes) (bits : List UInt32) : Prop where
  length : filter.length = nBytes + 1
  last : filter[nBytes]? = some (UInt8.ofNat k)
  marked : forall bit, bit ∈ bits -> Marked filter bit

theorem Marks.setBits (hm : Marks nBytes k filter bits) {more : List UInt32}
    (hmore : forall bit, bit ∈ more -> bit.toNat / 8 < nBytes) :
    exists filter', Table.setBits more filter = .ok filter' ∧
      Marks nBytes k filter' (more ++ bits) := by
  induction more generalizing filter bits with
  | nil => exact ⟨filter, rfl, hm⟩
  | cons bit more ih =>
      have hbit := hmore bit List.mem_cons_self
      have hlt : bit.toNat / 8 < filter.length := by
        rw [hm.length]
        lia
      have hm' : Marks nBytes k (filter.modify (bit.toNat / 8) (· ||| mask bit)) (bit :: bits) :=
        ⟨by simp [hm.length], by simp [Nat.ne_of_lt hbit, hm.last],
          fun c hc => marked_modify hlt ((List.mem_cons.mp hc).imp_right (hm.marked c))⟩
      rcases ih hm' fun c hc => hmore c (List.mem_cons_of_mem bit hc) with ⟨filter', hset, hall⟩
      refine ⟨filter', by rw [Table.setBits, if_pos hlt]; exact hset, { hall with marked := ?_ }⟩
      exact fun c hc => hall.marked c (List.perm_middle.symm.subset hc)

theorem testBits_marked (hbits : forall bit, bit ∈ bits -> Marked filter bit) :
    testBits filter bits = .ok true := by
  induction bits with
  | nil => rfl
  | cons bit bits ih =>
      rcases hbits bit List.mem_cons_self with ⟨b, hb, hne⟩
      rw [testBits, hb]
      dsimp only
      rw [if_neg hne]
      exact ih fun c hc => hbits c (List.mem_cons_of_mem bit hc)

theorem Marks.contains (hm : Marks nBytes k filter bits) (hk : k ≤ 30) (hbytes : 0 < nBytes)
    (hsub : probes (UInt32.ofNat (nBytes * 8)) k h ⊆ bits) :
    bloomMayContain filter h = .ok true := by
  have hbyte : (UInt8.ofNat k).toNat = k := by
    rw [UInt8.toNat_ofNat']
    lia
  unfold bloomMayContain
  dsimp only
  rw [hm.length, Nat.add_sub_cancel, hm.last, Option.getD_some, hbyte, if_neg (by lia)]
  split
  · rfl
  · exact testBits_marked fun bit hbit => hm.marked bit (hsub hbit)

theorem bloomBytes_of_room {keys : Nat} {bitsPerKey : Int}
    (hroom : ¬ 4294967296 ≤ wrapUint64 (wrapUint64 (keys * bitsPerKey) + 7) / 8 * 8) :
    exists nBytes, bloomBytes keys bitsPerKey = .ofNat nBytes ∧ 8 ≤ nBytes ∧
      nBytes * 8 < 4294967296 := by
  unfold bloomBytes
  generalize (keys : Int) * bitsPerKey = product at hroom ⊢
  have hbits : exists bits : Nat, (if wrapInt product < 64 then 64 else wrapInt product) = bits ∧
      64 ≤ bits ∧ bits < 4294967289 := by
    unfold wrapUint64 at hroom
    unfold wrapInt
    rw [Int.bmod_def]
    refine ⟨if product % 18446744073709551616 < 64 ∨ 4294967296 ≤ product % 18446744073709551616
      then 64 else (product % 18446744073709551616).toNat, ?_⟩
    split <;> split <;> split <;> lia
  rcases hbits with ⟨bits, hbits, hlow, hhigh⟩
  dsimp only
  rw [hbits]
  have hwrap : wrapInt (bits + 7) = ((bits + 7 : Nat) : Int) := by
    unfold wrapInt
    rw [Int.bmod_def]
    split <;> lia
  rw [hwrap]
  exact ⟨(bits + 7) / 8, rfl, by lia, by lia⟩

/-- Four keys at `2 ^ 62` bits each wrap around to none. -/
example : bloomBytes 4 4611686018427387904 = 8 := by decide

end Table
end Basalt
