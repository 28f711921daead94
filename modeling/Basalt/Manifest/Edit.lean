import Mathlib.Tactic.MkIffOfInductiveProp
import Basalt.Base.InternalKey
import Basalt.Base.Varint
import Basalt.Lib.Outcome

/-!
# Version edits

A version edit is one atomic change of the set of live tables.  It is logged as
a sequence of tagged fields.
-/

namespace Basalt
namespace Manifest

open Lib Base
open scoped Evaluate

def numLevels : Nat := 7

/-- One live table; the bounds are encoded internal keys. -/
structure FileMeta where
  level : Nat
  fileNum : Nat
  size : Nat
  smallest : Bytes
  largest : Bytes
deriving DecidableEq, Repr

structure DeletedFile where
  level : Nat
  fileNum : Nat
deriving DecidableEq, Repr

structure VersionEdit where
  logNumber : Option Nat := none
  nextFileNum : Option Nat := none
  lastSeq : Option Nat := none
  addFiles : List FileMeta := []
  deleteFiles : List DeletedFile := []
deriving DecidableEq, Repr

inductive Item where
  | tag
  | logNumber
  | nextFileNum
  | lastSeq
  | level
  | fileNum
  | fileSize
deriving DecidableEq, Repr

def Item.text : Item -> String
  | tag => "tag"
  | logNumber => "log number"
  | nextFileNum => "next file number"
  | lastSeq => "last seq"
  | level => "level"
  | fileNum => "file number"
  | fileSize => "file size"

inductive EditError where
  | bad (item : Item)
  | levelOutOfRange (level : Nat)
  | smallest (e : FramingError)
  | largest (e : FramingError)
  | shortBounds
  | unknownTag (tag : Nat)
deriving DecidableEq, Repr

def EditError.message : EditError -> String
  | bad item => "manifest: corrupt: bad " ++ item.text
  | levelOutOfRange level => "manifest: corrupt: level " ++ toString level ++ " out of range"
  | smallest e => "manifest: corrupt: add-file smallest: " ++ e.message
  | largest e => "manifest: corrupt: add-file largest: " ++ e.message
  | shortBounds => "manifest: corrupt: add-file bounds shorter than internal-key trailer"
  | unknownTag tag => "manifest: corrupt: unknown tag " ++ toString tag

inductive Field where
  | logNumber (n : Nat)
  | nextFileNum (n : Nat)
  | lastSeq (n : Nat)
  | addFile (f : FileMeta)
  | deleteFile (d : DeletedFile)

def tagLogNumber : Nat := 1
def tagNextFileNum : Nat := 2
def tagLastSeq : Nat := 3
def tagAddFile : Nat := 4
def tagDeleteFile : Nat := 5

def Field.encode : Field -> Bytes
  | logNumber n => putUvarint tagLogNumber ++ putUvarint n
  | nextFileNum n => putUvarint tagNextFileNum ++ putUvarint n
  | lastSeq n => putUvarint tagLastSeq ++ putUvarint n
  | addFile f =>
      putUvarint tagAddFile ++ (putUvarint f.level ++ (putUvarint f.fileNum ++
        (putUvarint f.size ++ (lengthPrefixed f.smallest ++ lengthPrefixed f.largest))))
  | deleteFile d => putUvarint tagDeleteFile ++ (putUvarint d.level ++ putUvarint d.fileNum)

namespace VersionEdit

def fields (e : VersionEdit) : List Field :=
  e.logNumber.toList.map .logNumber ++ (e.nextFileNum.toList.map .nextFileNum ++
    (e.lastSeq.toList.map .lastSeq ++
      (e.addFiles.map .addFile ++ e.deleteFiles.map .deleteFile)))

def encode (e : VersionEdit) : Bytes :=
  (e.fields.map Field.encode).flatten

def set (e : VersionEdit) : Field -> VersionEdit
  | .logNumber n => { e with logNumber := some n }
  | .nextFileNum n => { e with nextFileNum := some n }
  | .lastSeq n => { e with lastSeq := some n }
  | .addFile f => { e with addFiles := e.addFiles ++ [f] }
  | .deleteFile d => { e with deleteFiles := e.deleteFiles ++ [d] }

end VersionEdit

def decodeUvarint (item : Item) (buf : Bytes) : Except EditError (Nat × Bytes) :=
  match getUvarint buf with
  | none => .error (.bad item)
  | some x => .ok x

def decodeLevel (buf : Bytes) : Except EditError (Nat × Bytes) := do
  let l <- decodeUvarint .level buf
  if l.1 ≥ numLevels then .error (.levelOutOfRange l.1) else .ok l

def decodeAddFile (rest : Bytes) : Except EditError (FileMeta × Bytes) := do
  let level <- decodeLevel rest
  let fileNum <- decodeUvarint .fileNum level.2
  let size <- decodeUvarint .fileSize fileNum.2
  let s <- (decodeLengthPrefixed size.2).mapError .smallest
  let l <- (decodeLengthPrefixed s.2).mapError .largest
  if s.1.length < trailerLen ∨ l.1.length < trailerLen then .error .shortBounds
  else
    .ok ({ level := level.1, fileNum := fileNum.1, size := size.1,
           smallest := s.1, largest := l.1 }, l.2)

def decodeDeleteFile (rest : Bytes) : Except EditError (DeletedFile × Bytes) := do
  let level <- decodeLevel rest
  let fileNum <- decodeUvarint .fileNum level.2
  .ok ({ level := level.1, fileNum := fileNum.1 }, fileNum.2)

def decodeField (buf : Bytes) : Except EditError (Field × Bytes) := do
  let tag <- decodeUvarint .tag buf
  if tag.1 = tagLogNumber then do
    let n <- decodeUvarint .logNumber tag.2
    .ok (.logNumber n.1, n.2)
  else if tag.1 = tagNextFileNum then do
    let n <- decodeUvarint .nextFileNum tag.2
    .ok (.nextFileNum n.1, n.2)
  else if tag.1 = tagLastSeq then do
    let n <- decodeUvarint .lastSeq tag.2
    .ok (.lastSeq n.1, n.2)
  else if tag.1 = tagAddFile then do
    let f <- decodeAddFile tag.2
    .ok (.addFile f.1, f.2)
  else if tag.1 = tagDeleteFile then do
    let d <- decodeDeleteFile tag.2
    .ok (.deleteFile d.1, d.2)
  else .error (.unknownTag tag.1)

/-- The loop over the fields; a field takes at least one byte. -/
def decodeFields : Nat -> Bytes -> VersionEdit -> Except EditError VersionEdit
  | 0, _, e => .ok e
  | n + 1, rest, e =>
      if rest.length > 0 then do
        let x <- decodeField rest
        decodeFields n x.2 (e.set x.1)
      else .ok e

def decodeEdit (payload : Bytes) : Except EditError VersionEdit :=
  decodeFields payload.length payload {}

/-!
## Round trip
-/

@[mk_iff]
structure FileMeta.InRange (f : FileMeta) : Prop where
  level : f.level < numLevels
  fileNum : f.fileNum < rangeLE 8
  size : f.size < rangeLE 8
  smallest : trailerLen ≤ f.smallest.length ∧ f.smallest.length < rangeLE 8
  largest : trailerLen ≤ f.largest.length ∧ f.largest.length < rangeLE 8

@[mk_iff]
structure DeletedFile.InRange (d : DeletedFile) : Prop where
  level : d.level < numLevels
  fileNum : d.fileNum < rangeLE 8

def Field.InRange : Field -> Prop
  | logNumber n => n < rangeLE 8
  | nextFileNum n => n < rangeLE 8
  | lastSeq n => n < rangeLE 8
  | addFile f => f.InRange
  | deleteFile d => d.InRange

@[mk_iff]
structure VersionEdit.InRange (e : VersionEdit) : Prop where
  logNumber : forall n, e.logNumber = some n -> n < rangeLE 8
  nextFileNum : forall n, e.nextFileNum = some n -> n < rangeLE 8
  lastSeq : forall n, e.lastSeq = some n -> n < rangeLE 8
  addFiles : forall f, f ∈ e.addFiles -> f.InRange
  deleteFiles : forall d, d ∈ e.deleteFiles -> d.InRange

instance (f : FileMeta) : Decidable f.InRange :=
  decidable_of_iff' _ f.inRange_iff

instance (d : DeletedFile) : Decidable d.InRange :=
  decidable_of_iff' _ d.inRange_iff

instance (e : VersionEdit) : Decidable e.InRange :=
  decidable_of_iff' _ e.inRange_iff

theorem decodeUvarint_putUvarint (item : Item) {n : Nat} (h : n < rangeLE 8) (rest : Bytes) :
    decodeUvarint item (putUvarint n ++ rest) = .ok (n, rest) := by
  rw [decodeUvarint, getUvarint_putUvarint h]

theorem lt_of_level {level : Nat} (h : level < numLevels) : level < rangeLE 8 :=
  Nat.lt_trans h (by decide)

theorem decodeLevel_putUvarint {level : Nat} (h : level < numLevels) (rest : Bytes) :
    decodeLevel (putUvarint level ++ rest) = .ok (level, rest) := by
  rw [decodeLevel, decodeUvarint_putUvarint .level (lt_of_level h)]
  exact if_neg (Nat.not_le.mpr h)

theorem decodeAddFile_encode {f : FileMeta} (h : f.InRange) (rest : Bytes) :
    decodeAddFile (putUvarint f.level ++ (putUvarint f.fileNum ++ (putUvarint f.size ++
      (lengthPrefixed f.smallest ++ (lengthPrefixed f.largest ++ rest))))) =
      .ok (f, rest) := by
  have hbounds : ¬ (f.smallest.length < trailerLen ∨ f.largest.length < trailerLen) := by
    have hs := h.smallest.left
    have hl := h.largest.left
    lia
  apply bind_eq_ok.mpr ⟨_, decodeLevel_putUvarint h.level _, _⟩
  apply bind_eq_ok.mpr ⟨_, decodeUvarint_putUvarint .fileNum h.fileNum _, _⟩
  apply bind_eq_ok.mpr ⟨_, decodeUvarint_putUvarint .fileSize h.size _, _⟩
  apply bind_eq_ok.mpr ⟨_, mapError_eq_ok.mpr
    (decodeLengthPrefixed_lengthPrefixed h.smallest.right _), _⟩
  apply bind_eq_ok.mpr ⟨_, mapError_eq_ok.mpr
    (decodeLengthPrefixed_lengthPrefixed h.largest.right _), _⟩
  exact if_neg hbounds

theorem decodeDeleteFile_encode {d : DeletedFile} (h : d.InRange) (rest : Bytes) :
    decodeDeleteFile (putUvarint d.level ++ (putUvarint d.fileNum ++ rest)) =
      .ok (d, rest) := by
  apply bind_eq_ok.mpr ⟨_, decodeLevel_putUvarint h.level _, _⟩
  apply bind_eq_ok.mpr ⟨_, decodeUvarint_putUvarint .fileNum h.fileNum _, _⟩
  rfl

theorem decodeField_encode {x : Field} (h : x.InRange) (rest : Bytes) :
    decodeField (x.encode ++ rest) = .ok (x, rest) := by
  cases x with
  | logNumber n =>
      rw [Field.encode, List.append_assoc]
      apply bind_eq_ok.mpr ⟨_, decodeUvarint_putUvarint .tag (by decide) _, _⟩
      apply bind_eq_ok.mpr ⟨_, decodeUvarint_putUvarint .logNumber h _, _⟩
      rfl
  | nextFileNum n =>
      rw [Field.encode, List.append_assoc]
      apply bind_eq_ok.mpr ⟨_, decodeUvarint_putUvarint .tag (by decide) _, _⟩
      apply bind_eq_ok.mpr ⟨_, decodeUvarint_putUvarint .nextFileNum h _, _⟩
      rfl
  | lastSeq n =>
      rw [Field.encode, List.append_assoc]
      apply bind_eq_ok.mpr ⟨_, decodeUvarint_putUvarint .tag (by decide) _, _⟩
      apply bind_eq_ok.mpr ⟨_, decodeUvarint_putUvarint .lastSeq h _, _⟩
      rfl
  | addFile f =>
      rw [Field.encode]
      simp only [List.append_assoc]
      apply bind_eq_ok.mpr ⟨_, decodeUvarint_putUvarint .tag (by decide) _, _⟩
      apply bind_eq_ok.mpr ⟨_, decodeAddFile_encode h _, _⟩
      rfl
  | deleteFile d =>
      rw [Field.encode]
      simp only [List.append_assoc]
      apply bind_eq_ok.mpr ⟨_, decodeUvarint_putUvarint .tag (by decide) _, _⟩
      apply bind_eq_ok.mpr ⟨_, decodeDeleteFile_encode h _, _⟩
      rfl

theorem length_encode_pos (x : Field) : 0 < x.encode.length := by
  have hpos := length_putUvarint_pos
  cases x <;> rw [Field.encode, List.length_append] <;>
    exact Nat.lt_of_lt_of_le (hpos _) (Nat.le_add_right _ _)

theorem decodeFields_encode {fs : List Field} (h : forall x, x ∈ fs -> x.InRange) {n : Nat}
    (hn : ((fs.map Field.encode).flatten).length ≤ n) (e : VersionEdit) :
    decodeFields n (fs.map Field.encode).flatten e = .ok (fs.foldl VersionEdit.set e) := by
  induction fs generalizing n e with
  | nil => cases n <;> rfl
  | cons x fs ih =>
      have hpos := length_encode_pos x
      rw [List.map_cons, List.flatten_cons, List.length_append] at hn
      cases n with
      | zero => lia
      | succ n =>
          rw [List.map_cons, List.flatten_cons, decodeFields, if_pos]
          · apply bind_eq_ok.mpr ⟨_, decodeField_encode (h x List.mem_cons_self) _, _⟩
            exact ih (fun y hy => h y (List.mem_cons_of_mem x hy)) (by lia) (e.set x)
          · rw [List.length_append]
            lia

theorem foldl_set_addFile (fs : List FileMeta) (e : VersionEdit) :
    (fs.map Field.addFile).foldl VersionEdit.set e =
      { e with addFiles := e.addFiles ++ fs } := by
  induction fs generalizing e with
  | nil => rw [List.append_nil]; rfl
  | cons f fs ih =>
      rw [List.map_cons, List.foldl_cons, ih]
      show VersionEdit.mk _ _ _ (e.addFiles ++ [f] ++ fs) _ = _
      rw [List.append_assoc]
      rfl

theorem foldl_set_deleteFile (ds : List DeletedFile) (e : VersionEdit) :
    (ds.map Field.deleteFile).foldl VersionEdit.set e =
      { e with deleteFiles := e.deleteFiles ++ ds } := by
  induction ds generalizing e with
  | nil => rw [List.append_nil]; rfl
  | cons d ds ih =>
      rw [List.map_cons, List.foldl_cons, ih]
      show VersionEdit.mk _ _ _ _ (e.deleteFiles ++ [d] ++ ds) = _
      rw [List.append_assoc]
      rfl

theorem foldl_set_fields (e : VersionEdit) : e.fields.foldl VersionEdit.set {} = e := by
  rcases e with ⟨logNumber, nextFileNum, lastSeq, addFiles, deleteFiles⟩
  rw [VersionEdit.fields]
  simp only [List.foldl_append, foldl_set_addFile, foldl_set_deleteFile]
  cases logNumber <;> cases nextFileNum <;> cases lastSeq <;> rfl

namespace VersionEdit

theorem InRange.fields {e : VersionEdit} (h : e.InRange) : forall x, x ∈ e.fields -> x.InRange := by
  intro x hx
  rw [VersionEdit.fields] at hx
  simp only [List.mem_append, List.mem_map, Option.mem_toList] at hx
  rcases hx with ⟨n, hn, rfl⟩ | ⟨n, hn, rfl⟩ | ⟨n, hn, rfl⟩ | ⟨f, hf, rfl⟩ | ⟨d, hd, rfl⟩
  · exact h.logNumber n hn
  · exact h.nextFileNum n hn
  · exact h.lastSeq n hn
  · exact h.addFiles f hf
  · exact h.deleteFiles d hd

theorem decodeEdit_encode {e : VersionEdit} (h : e.InRange) : decodeEdit e.encode = .ok e := by
  rw [decodeEdit, encode, decodeFields_encode h.fields (Nat.le_refl _), foldl_set_fields]

end VersionEdit

end Manifest
end Basalt
