import Basalt.Lib.Float64
import Basalt.Engine.Levels

/-!
# Compaction

A compaction merges tables of a level with the tables they overlap in the next
one.  Of every user key it keeps the newest version, or nothing when that is a
tombstone and no deeper table could hold the key.
-/

namespace Basalt
namespace Engine

open Lib Base Std Manifest

/-- A value that is not positive asks for the default. -/
structure Options where
  memTableSize : Int := 0
  l0CompactThreshold : Int := 0
  l0StopThreshold : Int := 0
  levelBytesBase : Int := 0
  targetFileSize : Int := 0
deriving DecidableEq, Repr

def positiveOr (value default : Int) : Int :=
  if value ≤ 0 then default else value

theorem positiveOr_pos {value default : Int} (h : 0 < default) : 0 < positiveOr value default := by
  unfold positiveOr
  split
  · exact h
  · lia

def Options.defaults (o : Options) : Options where
  memTableSize := positiveOr o.memTableSize 4194304
  l0CompactThreshold := positiveOr o.l0CompactThreshold 4
  l0StopThreshold := positiveOr o.l0StopThreshold 12
  levelBytesBase := positiveOr o.levelBytesBase 10485760
  targetFileSize := positiveOr o.targetFileSize 2097152

/-- Inputs of the source level and of the output level, and the tables of the
levels below the output. -/
structure Compaction where
  level : Nat
  output : Nat
  inMeta : List FileMeta
  inMetaOutput : List FileMeta
  below : List (List FileMeta)
deriving DecidableEq

/-!
## The choice of a compaction
-/

/-- The byte budget of a level, in 64-bit arithmetic. -/
def Options.maxBytes (opts : Options) (level : Nat) : Int :=
  Int.bmod (opts.levelBytesBase * 10 ^ (level - 1)) (2 ^ 64)

def levelBytes (v : Version) (level : Level) : Nat :=
  ((v.files level).map FileMeta.size).sum

/-- The bytes of a level, in 64-bit arithmetic. -/
def totalBytes (v : Version) (level : Level) : Nat :=
  levelBytes v level % 2 ^ 64

def Options.score (opts : Options) (v : Version) (level : Level) : Float64 :=
  if level.val = 0 then .quotient (v.files level).length opts.l0CompactThreshold
  else .quotient (totalBytes v level) (opts.maxBytes level.val)

def bestLevel (score : Level -> Float64) :
    List Level -> Option Level -> Float64 -> Option Level
  | [], best, _ => best
  | l :: ls, best, bestScore =>
      if bestScore ≤ score l then bestLevel score ls (some l) (score l)
      else bestLevel score ls best bestScore

/-- The level with the highest score of at least 1; the last level is never
compacted. -/
def Options.pickLevel (opts : Options) (v : Version) : Option Level :=
  bestLevel (opts.score v) ((List.finRange numLevels).filter fun l => l.val + 1 < numLevels)
    none (.finite 1)

/-- The first table past the cursor, or the first one of all. -/
def rotate (files : List FileMeta) : Option Bytes -> Option FileMeta
  | none => files.head?
  | some ptr => (files.find? fun f => ¬ KeyLE f.smallest ptr).or files.head?

def lower (uk : Option Bytes) (s : Bytes) : Option Bytes :=
  match uk with
  | none => some s
  | some x => if compare s x = .lt then some s else some x

def upper (uk : Option Bytes) (s : Bytes) : Option Bytes :=
  match uk with
  | none => some s
  | some x => if compare s x = .gt then some s else some x

def userKeyRange (metas : List FileMeta) : Option Bytes × Option Bytes :=
  metas.foldl (fun r f => (lower r.1 (userKey f.smallest), upper r.2 (userKey f.largest)))
    (none, none)

/-- The tables whose user keys intersect the range; an unset bound compares as the
empty key. -/
def overlapping (metas : List FileMeta) (range : Option Bytes × Option Bytes) : List FileMeta :=
  metas.filter fun f =>
    ¬ (compare (userKey f.largest) (range.1.getD []) = .lt ∨
      compare (userKey f.smallest) (range.2.getD []) = .gt)

/-- The compaction of a level: all tables of level 0, or one of a deeper level. -/
def compactionAt (v : Version) (level output : Level) (ptr : Option Bytes) : Compaction :=
  let inMeta := if level.val = 0 then v.files level else (rotate (v.files level) ptr).toList
  { level := level
    output := output
    inMeta := inMeta
    inMetaOutput := overlapping (v.files output) (userKeyRange inMeta)
    below := ((List.finRange numLevels).filter fun l => output < l).map v.files }

/-- A compaction of some level that has tables into the next one. -/
def Pickable (v : Version) (c : Compaction) : Prop :=
  exists (level output : Level) (ptr : Option Bytes), output.val = level.val + 1 ∧
    v.files level ≠ [] ∧ c = compactionAt v level output ptr

/-- `pickCompactionLocked`: the compaction, and the cursors after it. -/
def pickCompaction (opts : Options) (v : Version) (compactPtr : Level -> Option Bytes) :
    Option (Compaction × (Level -> Option Bytes)) := do
  let level <- opts.pickLevel v
  if h : level.val + 1 < numLevels then
    let c := compactionAt v level ⟨level.val + 1, h⟩ (compactPtr level)
    if level.val = 0 then some (c, compactPtr)
    else some (c, Function.update compactPtr level (c.inMeta.head?.map FileMeta.smallest))
  else none

/-- What the table writer reports of the pairs it was given: the estimate while
it writes, and the size of the file. -/
structure Sizes where
  estimated : List Pair -> Nat
  file : List Pair -> Nat

namespace Compaction

variable {ε : Type}

def inputs (c : Compaction) : List FileMeta :=
  c.inMeta ++ c.inMetaOutput

def keyMayExistBelow (c : Compaction) (uk : Bytes) : Bool :=
  c.below.any fun level =>
    level.any fun f =>
      (compare (userKey f.smallest) uk).isLE && (compare uk (userKey f.largest)).isLE

/-!
## The loop
-/

structure Output where
  fileNum : Nat
  pairs : List Pair := []
deriving DecidableEq

inductive CompactError (ε : Type) where
  | key (e : KeyError)
  | shortKey
  | outOfOrder
  | read (e : ε)

def Output.add (o : Output) (p : Pair) : Except (CompactError ε) Output :=
  if p.key.length < trailerLen then .error .shortKey
  else if o.pairs.getLast?.any fun q => (p.compare q).isLE then .error .outOfOrder
  else .ok { o with pairs := o.pairs ++ [p] }

/-- The variables of the loop: the tables that are finished, the one that is open,
the last user key, and how many file numbers were allocated. -/
structure Building where
  outputs : List Output := []
  w : Option Output := none
  lastUK : Option Bytes := none
  allocated : Nat := 0

section

variable (c : Compaction) (opts : Options) (estimatedSize : List Pair -> Nat)
  (alloc : Nat -> Nat)

def write (b : Building) (p : Pair) : Except (CompactError ε) Building := do
  let o <- (b.w.getD { fileNum := alloc b.allocated }).add p
  let b := { b with allocated := if b.w.isSome then b.allocated else b.allocated + 1 }
  if opts.targetFileSize ≤ (estimatedSize o.pairs : Int) then
    pure { b with outputs := b.outputs ++ [o], w := none }
  else pure { b with w := some o }

def step (b : Building) (p : Pair) : Except (CompactError ε) Building := do
  let ik <- (decodeInternalKey p.key).mapError .key
  if b.lastUK = some ik.userKey then pure b
  else
    let b := { b with lastUK := some ik.userKey }
    if ik.kind = .delete ∧ ¬ c.keyMayExistBelow ik.userKey then pure b
    else write opts estimatedSize alloc b p

/-- The merge over the inputs: the pairs the loop sees, and the iterator at its end.
`faults` are the reads that fail, call by call. -/
def merge (t : Sources) (faults : Nat -> Faults ε) : List Pair × MergingIter ε :=
  let children := c.inputs.map FileMeta.fileNum
  let m : MergingIter ε := { children := children }
  (m.first t (faults 0)).drain t faults (children.flatMap t).length 1

def outputs (t : Sources) (faults : Nat -> Faults ε) : Except (CompactError ε) (List Output) := do
  let r := merge c t faults
  let b <- r.1.foldlM (step c opts estimatedSize alloc) {}
  match r.2.err with
  | some e => .error (.read e)
  | none => pure (b.outputs ++ b.w.toList)

end

def Output.fileMeta (o : Output) (level : Nat) (fileSize : List Pair -> Nat) : FileMeta where
  level := level
  fileNum := o.fileNum
  size := fileSize o.pairs
  smallest := (o.pairs.head?.map Pair.key).getD []
  largest := (o.pairs.getLast?.map Pair.key).getD []

def edit (c : Compaction) (fileSize : List Pair -> Nat) (outs : List Output) : VersionEdit where
  addFiles := outs.map fun o => o.fileMeta c.output fileSize
  deleteFiles := c.inputs.map fun f => { level := f.level, fileNum := f.fileNum }

def written (t : Sources) (outs : List Output) : Sources := fun n =>
  match outs.find? fun o => o.fileNum = n with
  | some o => o.pairs
  | none => t n

/-!
## What survives
-/

/-- The pair is not a tombstone that can be dropped. -/
def Keeps (c : Compaction) (p : Pair) : Prop :=
  ¬ ((decodeInternalKey p.key).toOption.map InternalKey.kind = some .delete ∧
    c.keyMayExistBelow p.userKey = false)

instance (c : Compaction) (p : Pair) : Decidable (c.Keeps p) :=
  inferInstanceAs (Decidable (¬ _))

/-- The pairs that the loop writes, after a user key. -/
def survivors (c : Compaction) : Option Bytes -> List Pair -> List Pair
  | _, [] => []
  | last, p :: ps =>
      if last = some p.userKey then c.survivors last ps
      else if c.Keeps p then p :: c.survivors (some p.userKey) ps
      else c.survivors (some p.userKey) ps

variable {c : Compaction} {ps : List Pair} {p q : Pair} {last : Option Bytes}

/-- What comes after the last user key in the merge. -/
def Follows (last : Option Bytes) (ps : List Pair) : Prop :=
  forall uk, last = some uk -> forall p, p ∈ ps -> (compare uk p.userKey).isLE = true

theorem follows_none (ps : List Pair) : Follows none ps :=
  fun _ h => by cases h

theorem Follows.tail (h : Follows last (p :: ps)) : Follows last ps :=
  fun uk hlast q hq => h uk hlast q (List.mem_cons_of_mem p hq)

theorem follows_cons (h : Ascending Pair.compare (p :: ps)) : Follows (some p.userKey) ps := by
  intro uk huk q hq
  cases huk
  apply userKey_isLE
  have hlt : compareKeys p.key q.key = .lt := (List.pairwise_cons.mp h).left q hq
  rw [hlt]
  rfl

theorem survivors_sublist (c : Compaction) (last : Option Bytes) (ps : List Pair) :
    (c.survivors last ps).Sublist ps := by
  induction ps generalizing last with
  | nil => exact List.Sublist.refl _
  | cons p ps ih =>
      unfold survivors
      split
      · exact (ih last).cons p
      · split
        · exact (ih _).cons_cons p
        · exact (ih _).cons p

theorem survivors_lt (h : Ascending Pair.compare ps) (hlast : Follows last ps) {uk : Bytes}
    (huk : last = some uk) (hp : p ∈ c.survivors last ps) : compare uk p.userKey = .lt := by
  subst huk
  induction ps with
  | nil => cases hp
  | cons a ps ih =>
      have hrest := (List.pairwise_cons.mp h).right
      unfold survivors at hp
      split at hp
      · exact ih hrest hlast.tail hp
      · next hne =>
          have hle := hlast uk rfl a List.mem_cons_self
          have hlt : compare uk a.userKey = .lt := by
            cases hcmp : compare uk a.userKey with
            | lt => rfl
            | eq => exact absurd (congrArg some (LawfulEqCmp.eq_of_compare hcmp)) hne
            | gt =>
                rw [hcmp] at hle
                cases hle
          have hlater : forall q, q ∈ ps -> compare uk q.userKey = .lt :=
            fun q hq => TransCmp.lt_of_lt_of_isLE hlt (follows_cons h _ rfl q hq)
          split at hp
          · rcases List.mem_cons.mp hp with rfl | hp
            · exact hlt
            · exact hlater p ((survivors_sublist c _ ps).subset hp)
          · exact hlater p ((survivors_sublist c _ ps).subset hp)

theorem survivors_pairwise (h : Ascending Pair.compare ps) (hlast : Follows last ps) :
    (c.survivors last ps).Pairwise fun p q => compare p.userKey q.userKey = .lt := by
  induction ps generalizing last with
  | nil => exact List.Pairwise.nil
  | cons a ps ih =>
      have hrest := (List.pairwise_cons.mp h).right
      unfold survivors
      split
      · exact ih hrest hlast.tail
      · have hcons := follows_cons h
        split
        · refine List.pairwise_cons.mpr ⟨fun q hq => ?_, ih hrest hcons⟩
          exact survivors_lt hrest hcons rfl hq
        · exact ih hrest hcons

def NewestIn (ps : List Pair) (p : Pair) : Prop :=
  forall q, q ∈ ps -> q.userKey = p.userKey -> (p.compare q).isLE = true

theorem survivors_newest (h : Ascending Pair.compare ps) (hlast : Follows last ps)
    (hp : p ∈ c.survivors last ps) : c.Keeps p ∧ NewestIn ps p := by
  induction ps generalizing last with
  | nil => cases hp
  | cons a ps ih =>
      rcases List.pairwise_cons.mp h with ⟨hall, hrest⟩
      have hcons := follows_cons h
      have hlater : forall {uk}, p ∈ c.survivors (some uk) ps -> Follows (some uk) ps ->
          uk = a.userKey -> c.Keeps p ∧ NewestIn (a :: ps) p := by
        intro uk hmem hfollows huk
        rcases ih hrest hfollows hmem with ⟨hkeeps, hnewest⟩
        refine ⟨hkeeps, fun q hq huser => ?_⟩
        rcases List.mem_cons.mp hq with rfl | hq
        · have hlt := survivors_lt hrest hfollows rfl hmem
          have hself : compare uk uk = .eq := cmp_self uk
          rw [← huser, ← huk, hself] at hlt
          cases hlt
        · exact hnewest q hq huser
      unfold survivors at hp
      split at hp
      · next hsame =>
          rw [hsame] at hp
          exact hlater hp (hsame ▸ hlast.tail) rfl
      · split at hp
        · next hkeeps =>
            rcases List.mem_cons.mp hp with rfl | hp
            · refine ⟨hkeeps, fun q hq _ => ?_⟩
              rcases List.mem_cons.mp hq with rfl | hq
              · have hself : q.compare q = .eq := cmp_self q
                rw [hself]
                rfl
              · rw [hall q hq]
                rfl
            · exact hlater hp hcons rfl
        · exact hlater hp hcons rfl

theorem mem_survivors (h : Ascending Pair.compare ps) (hp : p ∈ ps)
    (hlast : last ≠ some p.userKey) (hkeeps : c.Keeps p) (hnewest : NewestIn ps p) :
    p ∈ c.survivors last ps := by
  induction ps generalizing last with
  | nil => cases hp
  | cons a ps ih =>
      rcases List.pairwise_cons.mp h with ⟨hall, hrest⟩
      unfold survivors
      rcases List.mem_cons.mp hp with rfl | hp
      · rw [if_neg hlast, if_pos hkeeps]
        exact List.mem_cons_self
      · have hne : some a.userKey ≠ some p.userKey := by
          intro huser
          have hle := hnewest a List.mem_cons_self (Option.some.inj huser)
          rw [cmp_eq_gt (hall p hp)] at hle
          cases hle
        have hnewest' : NewestIn ps p := fun q hq => hnewest q (List.mem_cons_of_mem a hq)
        split
        · exact ih hrest hp hlast hnewest'
        · split
          · exact List.mem_cons_of_mem a (ih hrest hp hne hnewest')
          · exact ih hrest hp hne hnewest'

/-!
## The tables that are written
-/

section

variable {ε : Type} {alloc : Nat -> Nat} {b : Building}

namespace Building

def all (b : Building) : List Output :=
  b.outputs ++ b.w.toList

def pairs (b : Building) : List Pair :=
  b.all.flatMap Output.pairs

/-- No table is empty, and the numbers are those allocated. -/
structure OK (alloc : Nat -> Nat) (b : Building) : Prop where
  nonempty : forall o, o ∈ b.all -> o.pairs ≠ []
  numbers : b.all.map Output.fileNum = (List.range b.allocated).map alloc

end Building

theorem add_eq_ok {o : Output} (hlen : trailerLen ≤ p.key.length)
    (hlater : forall q, q ∈ o.pairs -> q.compare p = .lt) :
    o.add p = (.ok { o with pairs := o.pairs ++ [p] } : Except (CompactError ε) Output) := by
  have hlast : ¬ (o.pairs.getLast?.any fun q => (p.compare q).isLE) = true := by
    intro hany
    cases hq : o.pairs.getLast? with
    | none =>
        rw [hq] at hany
        cases hany
    | some q =>
        rw [hq, Option.any_some, cmp_eq_gt (hlater q (List.mem_of_getLast? hq))] at hany
        cases hany
  unfold Output.add
  rw [if_neg (Nat.not_lt.mpr hlen), if_neg hlast]

theorem Building.OK.extend {outs : List Output} {o : Output} (hok : b.OK alloc) (b' : Building)
    (hall : b.all = outs ++ [o])
    (hall' : b'.all = outs ++ [{ o with pairs := o.pairs ++ [p] }])
    (hallocated : b'.allocated = b.allocated) :
    b'.OK alloc ∧ b'.pairs = b.pairs ++ [p] := by
  refine ⟨⟨?_, ?_⟩, ?_⟩
  · intro x hx
    rw [hall'] at hx
    rcases List.mem_append.mp hx with hx | hx
    · exact hok.nonempty x (hall ▸ List.mem_append_left _ hx)
    · rw [List.mem_singleton.mp hx]
      exact List.append_ne_nil_of_right_ne_nil _ (List.cons_ne_nil p [])
  · rw [hallocated, ← hok.numbers, hall, hall', List.map_append, List.map_append]
    rfl
  · unfold Building.pairs
    rw [hall, hall', List.flatMap_append, List.flatMap_append, List.append_assoc]
    simp only [List.flatMap_cons, List.flatMap_nil, List.append_nil]

theorem Building.OK.create {outs : List Output} (hok : b.OK alloc) (b' : Building)
    (hall : b.all = outs)
    (hall' : b'.all = outs ++ [{ fileNum := alloc b.allocated, pairs := [p] }])
    (hallocated : b'.allocated = b.allocated + 1) :
    b'.OK alloc ∧ b'.pairs = b.pairs ++ [p] := by
  refine ⟨⟨?_, ?_⟩, ?_⟩
  · intro x hx
    rw [hall'] at hx
    rcases List.mem_append.mp hx with hx | hx
    · exact hok.nonempty x (hall ▸ hx)
    · rw [List.mem_singleton.mp hx]
      exact List.cons_ne_nil p []
  · rw [hallocated, List.range_succ, List.map_append, ← hok.numbers, hall, hall',
      List.map_append]
    rfl
  · unfold Building.pairs
    rw [hall, hall', List.flatMap_append]
    rfl

theorem write_spec (opts : Options) (estimatedSize : List Pair -> Nat) (hok : b.OK alloc)
    (hlen : trailerLen ≤ p.key.length)
    (hlater : forall q, q ∈ b.pairs -> compare q.userKey p.userKey = .lt) :
    exists b', (write opts estimatedSize alloc b p : Except (CompactError ε) Building) = .ok b' ∧
      b'.OK alloc ∧ b'.pairs = b.pairs ++ [p] ∧ b'.lastUK = b.lastUK := by
  have hcompare : forall q, q ∈ b.pairs -> q.compare p = .lt :=
    fun q hq => compareKeys_of_userKey_lt (hlater q hq)
  unfold write
  cases hw : b.w with
  | none =>
      have hall : b.all = b.outputs := by
        unfold Building.all
        rw [hw]
        exact List.append_nil _
      have hadd : Output.add { fileNum := alloc b.allocated } p =
          (.ok { fileNum := alloc b.allocated, pairs := [p] } : Except (CompactError ε) Output) :=
        add_eq_ok hlen fun q hq => by cases hq
      rw [Option.getD_none, hadd]
      by_cases hfull : opts.targetFileSize ≤ (estimatedSize [p] : Int)
      · refine ⟨_, if_pos hfull, ?_⟩
        have hnew := hok.create { b with
          outputs := b.outputs ++ [{ fileNum := alloc b.allocated, pairs := [p] }]
          w := none
          allocated := b.allocated + 1 } hall (List.append_nil _) rfl
        exact ⟨hnew.left, hnew.right, rfl⟩
      · refine ⟨_, if_neg hfull, ?_⟩
        have hnew := hok.create { b with
          w := some { fileNum := alloc b.allocated, pairs := [p] }
          allocated := b.allocated + 1 } hall rfl rfl
        exact ⟨hnew.left, hnew.right, rfl⟩
  | some o =>
      have hall : b.all = b.outputs ++ [o] := by
        unfold Building.all
        rw [hw]
        rfl
      have hmem : forall q, q ∈ o.pairs -> q ∈ b.pairs := by
        intro q hq
        refine List.mem_flatMap.mpr ⟨o, ?_, hq⟩
        rw [hall]
        exact List.mem_append_right _ List.mem_cons_self
      have hadd : o.add p =
          (.ok { o with pairs := o.pairs ++ [p] } : Except (CompactError ε) Output) :=
        add_eq_ok hlen fun q hq => hcompare q (hmem q hq)
      rw [Option.getD_some, hadd]
      by_cases hfull : opts.targetFileSize ≤ (estimatedSize (o.pairs ++ [p]) : Int)
      · refine ⟨_, if_pos hfull, ?_⟩
        have hnew := hok.extend { b with
          outputs := b.outputs ++ [{ o with pairs := o.pairs ++ [p] }]
          w := none } hall (List.append_nil _) rfl
        exact ⟨hnew.left, hnew.right, rfl⟩
      · refine ⟨_, if_neg hfull, ?_⟩
        have hnew := hok.extend { b with
          w := some { o with pairs := o.pairs ++ [p] } } hall rfl rfl
        exact ⟨hnew.left, hnew.right, rfl⟩

def Building.Behind (b : Building) : Prop :=
  forall q, q ∈ b.pairs -> exists uk, b.lastUK = some uk ∧ (compare q.userKey uk).isLE = true

theorem keeps_of_decode {ik : InternalKey} (h : decodeInternalKey p.key = .ok ik) :
    c.Keeps p <-> ¬ (ik.kind = .delete ∧ ¬ c.keyMayExistBelow ik.userKey = true) := by
  have huser : ik.userKey = p.userKey := (decodeInternalKey_eq_ok h).right.left
  unfold Keeps
  rw [h, huser, Bool.not_eq_true]
  simp [Except.toOption]

theorem step_spec (opts : Options) (estimatedSize : List Pair -> Nat) (hok : b.OK alloc)
    (hbehind : b.Behind)
    (hlast : Follows b.lastUK (p :: ps))
    (hvalid : exists ik, decodeInternalKey p.key = .ok ik) :
    exists b', (step c opts estimatedSize alloc b p : Except (CompactError ε) Building) = .ok b' ∧
      b'.OK alloc ∧ b'.Behind ∧
      ((b.lastUK = some p.userKey ∧ b'.lastUK = b.lastUK ∧ b'.pairs = b.pairs) ∨
        (b.lastUK ≠ some p.userKey ∧ b'.lastUK = some p.userKey ∧
          b'.pairs = b.pairs ++ if c.Keeps p then [p] else [])) := by
  rcases hvalid with ⟨ik, hik⟩
  rcases decodeInternalKey_eq_ok hik with ⟨hlen, huser, _⟩
  have huser : ik.userKey = p.userKey := huser
  unfold step
  rw [hik]
  show exists b', (if b.lastUK = some ik.userKey then pure b else _) = Except.ok b' ∧ _
  rw [huser]
  by_cases hsame : b.lastUK = some p.userKey
  · rw [if_pos hsame]
    exact ⟨b, rfl, hok, hbehind, Or.inl ⟨hsame, rfl, rfl⟩⟩
  · rw [if_neg hsame]
    -- The pairs so far are before the new user key.
    have hlater : forall q, q ∈ b.pairs -> compare q.userKey p.userKey = .lt := by
      intro q hq
      rcases hbehind q hq with ⟨uk, huk, hle⟩
      have hnext := hlast uk huk p List.mem_cons_self
      refine TransCmp.lt_of_isLE_of_lt hle ?_
      cases hcmp : compare uk p.userKey with
      | lt => rfl
      | eq =>
          rw [huk, LawfulEqCmp.eq_of_compare hcmp] at hsame
          exact absurd rfl hsame
      | gt =>
          rw [hcmp] at hnext
          cases hnext
    have hself : (compare p.userKey p.userKey).isLE = true := by
      have heq : compare p.userKey p.userKey = .eq := cmp_self _
      rw [heq]
      rfl
    have hold : forall q, q ∈ b.pairs -> (compare q.userKey p.userKey).isLE = true := by
      intro q hq
      rw [hlater q hq]
      rfl
    have hkeeps := keeps_of_decode (c := c) hik
    rw [huser] at hkeeps
    by_cases hdrop : ik.kind = .delete ∧ ¬ c.keyMayExistBelow p.userKey = true
    · rw [if_neg (fun h => hkeeps.mp h hdrop)]
      refine ⟨{ b with lastUK := some p.userKey }, if_pos hdrop, ⟨hok.nonempty, hok.numbers⟩,
        fun q hq => ⟨p.userKey, rfl, hold q hq⟩, Or.inr ⟨hsame, rfl, ?_⟩⟩
      exact (List.append_nil _).symm
    · rw [if_pos (hkeeps.mpr hdrop)]
      have hok' : Building.OK alloc { b with lastUK := some p.userKey } :=
        ⟨hok.nonempty, hok.numbers⟩
      rcases write_spec (ε := ε) opts estimatedSize hok' hlen hlater with
        ⟨b', hb', hnew, hpairs, huk⟩
      refine ⟨b', (if_neg hdrop).trans hb', hnew, ?_, Or.inr ⟨hsame, huk, hpairs⟩⟩
      intro q hq
      rw [hpairs] at hq
      refine ⟨p.userKey, huk, ?_⟩
      rcases List.mem_append.mp hq with hq | hq
      · exact hold q hq
      · rw [List.mem_singleton.mp hq]
        exact hself

theorem foldlM_step (opts : Options) (estimatedSize : List Pair -> Nat)
    (h : Ascending Pair.compare ps)
    (hvalid : forall p, p ∈ ps -> exists ik, decodeInternalKey p.key = .ok ik)
    (hok : b.OK alloc) (hbehind : b.Behind) (hlast : Follows b.lastUK ps) :
    exists b', (ps.foldlM (step c opts estimatedSize alloc) b :
        Except (CompactError ε) Building) = .ok b' ∧
      b'.OK alloc ∧ b'.pairs = b.pairs ++ c.survivors b.lastUK ps := by
  induction ps generalizing b with
  | nil => exact ⟨b, rfl, hok, (List.append_nil _).symm⟩
  | cons p ps ih =>
      have hrest := (List.pairwise_cons.mp h).right
      rcases step_spec (ε := ε) (c := c) opts estimatedSize hok hbehind hlast
        (hvalid p List.mem_cons_self) with ⟨mid, hmid, hok', hbehind', hcase⟩
      have hvalid' := fun q hq => hvalid q (List.mem_cons_of_mem p hq)
      unfold survivors
      rcases hcase with ⟨hsame, huk, hpairs⟩ | ⟨hsame, huk, hpairs⟩
      · rcases ih hrest hvalid' hok' hbehind' (huk ▸ hlast.tail) with ⟨b', hb', hnew, hall⟩
        refine ⟨b', bind_eq_ok.mpr ⟨mid, hmid, hb'⟩, hnew, ?_⟩
        rw [if_pos hsame, hall, hpairs, huk]
      · rcases ih hrest hvalid' hok' hbehind' (huk ▸ follows_cons h) with ⟨b', hb', hnew, hall⟩
        refine ⟨b', bind_eq_ok.mpr ⟨mid, hmid, hb'⟩, hnew, ?_⟩
        rw [if_neg hsame, hall, hpairs, huk, List.append_assoc]
        split
        · rfl
        · rfl

end

end Compaction

end Engine
end Basalt
