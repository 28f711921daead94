import Basalt.Lib.Proc
import Basalt.Manifest.Version
import Basalt.Wal.Checksum

/-!
# The version set

The edits are logged to a manifest file that the file CURRENT names.  A
rotation writes the whole version to a new manifest and then repoints CURRENT
by an atomic rename; opening always rotates, which drops a torn record, and
then collects the files nobody refers to.
-/

namespace Basalt
namespace Manifest

open Lib Base

/-!
## The directory
-/

structure ManifestFile where
  num : Nat
  bytes : Bytes := []
  synced : Nat := 0
deriving DecidableEq, Repr

inductive FileName where
  | table (num : Nat)
  | current
  | currentTmp
  | manifest (num : Nat)
deriving DecidableEq, Repr

/-- The files of an engine: the tables, by their numbers, the manifest that
CURRENT names, whether a temporary CURRENT is left, and the manifests. -/
structure Disk where
  tables : List Nat := []
  current : Option Nat := none
  tmp : Bool := false
  manifests : List ManifestFile := []
deriving DecidableEq, Repr

namespace Disk

def entries (d : Disk) : List FileName :=
  d.tables.map .table ++ (d.current.toList.map (fun _ => .current) ++
    ((if d.tmp then [.currentTmp] else []) ++ d.manifests.map fun m => .manifest m.num))

def manifestNums (d : Disk) : List Nat :=
  d.manifests.map ManifestFile.num

def update (d : Disk) (num : Nat) (f : ManifestFile -> ManifestFile) : Disk :=
  { d with manifests := d.manifests.map fun m => if m.num = num then f m else m }

def read (d : Disk) (num : Nat) : Option Bytes :=
  (d.manifests.find? fun m => m.num = num).map ManifestFile.bytes

def remove (d : Disk) : FileName -> Disk
  | .table num => { d with tables := d.tables.filter fun n => n ≠ num }
  | .current => { d with current := none }
  | .currentTmp => { d with tmp := false }
  | .manifest num => { d with manifests := d.manifests.filter fun m => m.num ≠ num }

end Disk

inductive SetError where
  | exist (num : Nat)
  | notExist (num : Nat)
  | edit (e : EditError)
  | version (e : VersionError)
  | logNumberRegression (n current : Nat)
  | lastSeqRegression (n current : Nat)
  | currentMissing
  | notTornTail (num offset : Nat)
  | failed (cause : SetError)
  | panic (p : Wal.Panic)
deriving DecidableEq, Repr

def SetError.IsPanic : SetError -> Prop
  | panic _ => True
  | _ => False

instance : DecidablePred SetError.IsPanic := fun e =>
  match e with
  | .exist _ | .notExist _ | .edit _ | .version _ | .logNumberRegression _ _
  | .lastSeqRegression _ _ | .currentMissing | .notTornTail _ _ | .failed _ =>
      inferInstanceAs (Decidable False)
  | .panic _ => inferInstanceAs (Decidable True)

def createManifest (num : Nat) : Proc Disk (Except SetError Unit) := do
  let d <- Proc.get
  if num ∈ d.manifestNums then pure (.error (.exist num))
  else do
    Proc.step fun d => { d with manifests := d.manifests ++ [{ num := num }] }
    pure (.ok ())

def writeManifest (num : Nat) (buf : Bytes) : Proc Disk Unit :=
  Proc.step fun d => d.update num fun m => { m with bytes := m.bytes ++ buf }

def syncManifest (num : Nat) : Proc Disk Unit :=
  Proc.step fun d => d.update num fun m => { m with synced := m.bytes.length }

/-- Repoints CURRENT: the temporary file is written, and renamed. -/
def setCurrent (num : Nat) : Proc Disk Unit := do
  Proc.step fun d => { d with tmp := true }
  Proc.step fun d => { d with current := some num, tmp := false }

/-!
## The set
-/

/-- A size that is not positive asks for the default. -/
structure Options where
  rotateSize : Int := 0
deriving DecidableEq, Repr

def Options.withDefaults (opts : Options) : Options :=
  { rotateSize := if opts.rotateSize ≤ 0 then 1048576 else opts.rotateSize }

structure VersionSet where
  opts : Options
  cur : Version := {}
  logNumber : Nat := 0
  nextFileNum : Nat := 1
  lastSeq : Nat := 0
  manifestNum : Nat := 0
  size : Nat := 0
  snapshotSize : Nat := 0
  err : Option SetError := none

structure Recovered where
  version : Version := {}
  logNumber : Nat := 0
  nextFileNum : Nat := 1
  lastSeq : Nat := 0

def Recovered.apply (r : Recovered) (e : VersionEdit) : Except VersionError Recovered := do
  let v <- applyEdit r.version e
  .ok { version := v
        logNumber := e.logNumber.getD r.logNumber
        nextFileNum := e.nextFileNum.getD r.nextFileNum
        lastSeq := e.lastSeq.getD r.lastSeq }

def applyRecord (r : Recovered) (payload : Bytes) : Except SetError Recovered := do
  let e <- (decodeEdit payload).mapError .edit
  (r.apply e).mapError .version

/-- A damaged record with bytes behind its declared end is not a torn tail. -/
def checkTail (num clean : Nat) (tail : Bytes) : Except SetError Unit :=
  if tail.length ≥ Wal.recordHeaderLen ∧
      Wal.recordHeaderLen + getLE ((tail.drop 4).take 4) < tail.length then
    .error (.notTornTail num clean)
  else .ok ()

def replay (d : Disk) (num : Nat) : Except SetError Recovered :=
  match d.read num with
  | none => .error (.notExist num)
  | some buf => do
      let scan := Wal.scanRecords applyRecord buf {}
      let r <- scan.2
      checkTail num scan.1 (buf.drop scan.1)
      .ok { r with nextFileNum := if num ≥ r.nextFileNum then num + 1 else r.nextFileNum }

def FileName.num? : FileName -> Option Nat
  | table num => some num
  | current => none
  | currentTmp => none
  | manifest num => some num

/-- Moves the counter past a file. -/
def skipFile (next : Nat) (name : FileName) : Nat :=
  name.num?.elim next fun num => if num ≥ next then num + 1 else next

namespace VersionSet

def fail (vs : VersionSet) (e : SetError) : VersionSet :=
  { vs with err := vs.err.or (some (.failed e)) }

def snapshotEdit (vs : VersionSet) : VersionEdit :=
  { snapshot vs.cur with
    logNumber := some vs.logNumber
    nextFileNum := some (vs.nextFileNum + 1)
    lastSeq := some vs.lastSeq }

/-- Writes the whole state to a new manifest and repoints CURRENT. -/
def rotate (vs : VersionSet) : Proc Disk (Except (VersionSet × SetError) VersionSet) :=
  let num := vs.nextFileNum
  let next := { vs with nextFileNum := num + 1 }
  (createManifest num).orFail (fun e => pure (.error (next.fail e, e))) fun _ =>
    match Wal.appendRecord [] vs.snapshotEdit.encode with
    | .error p => pure (.error (next, .panic p))
    | .ok buf => do
        writeManifest num buf
        syncManifest num
        setCurrent num
        pure (.ok { next with
          size := buf.length, snapshotSize := buf.length, manifestNum := num })

/-- The edit as it is logged: with every counter. -/
def stamp (vs : VersionSet) (e : VersionEdit) : VersionEdit :=
  { e with
    logNumber := some (e.logNumber.getD vs.logNumber)
    lastSeq := some (e.lastSeq.getD vs.lastSeq)
    nextFileNum := some vs.nextFileNum }

/-- Rotates once the log has grown far enough past its snapshot; the sum of the
sizes is one of 64 bits with sign. -/
def rotateFull (vs : VersionSet) : Proc Disk (Except (VersionSet × SetError) VersionSet) :=
  if (vs.size : Int) ≥ (vs.opts.rotateSize + vs.snapshotSize).bmod (rangeLE 8) then vs.rotate
  else pure (.ok vs)

/-- Why an edit is refused before anything is written. -/
def check (vs : VersionSet) (e : VersionEdit) : Except SetError Version :=
  if e.logNumber.getD vs.logNumber < vs.logNumber then
    .error (.logNumberRegression (e.logNumber.getD 0) vs.logNumber)
  else if e.lastSeq.getD vs.lastSeq < vs.lastSeq then
    .error (.lastSeqRegression (e.lastSeq.getD 0) vs.lastSeq)
  else (applyEdit vs.cur e).mapError .version

/-- Logs the edit, then installs it.  An error of the rotation that follows is
not reported against the edit, unless it is a panic. -/
def logEdit (vs : VersionSet) (e : VersionEdit) (v : Version) :
    Proc Disk (VersionSet × Except SetError Unit) :=
  match Wal.appendRecord [] (vs.stamp e).encode with
  | .error p => pure (vs, .error (.panic p))
  | .ok buf => do
      writeManifest vs.manifestNum buf
      syncManifest vs.manifestNum
      let logged := { vs with
        size := vs.size + buf.length
        cur := v
        logNumber := e.logNumber.getD vs.logNumber
        lastSeq := e.lastSeq.getD vs.lastSeq }
      logged.rotateFull.orFail
        (fun r => pure (r.1, if r.2.IsPanic then .error r.2 else .ok ()))
        fun vs' => pure (vs', .ok ())

def apply (vs : VersionSet) (e : VersionEdit) : Proc Disk (VersionSet × Except SetError Unit) :=
  match vs.err with
  | some err => pure (vs, .error err)
  | none =>
      match vs.check e with
      | .error err => pure (vs.fail err, .error err)
      | .ok v => vs.logEdit e v

def allocFileNum (vs : VersionSet) : Nat × VersionSet :=
  (vs.nextFileNum, { vs with nextFileNum := vs.nextFileNum + 1 })

def Doomed (vs : VersionSet) (protect : List Nat) : FileName -> Prop
  | .table num => num ∉ vs.cur.live ∧ num ∉ protect
  | .current => False
  | .currentTmp => True
  | .manifest num => num ≠ vs.manifestNum

instance (vs : VersionSet) (protect : List Nat) : DecidablePred (vs.Doomed protect) :=
  fun name =>
    match name with
    | .table num => inferInstanceAs (Decidable (num ∉ vs.cur.live ∧ num ∉ protect))
    | .current => inferInstanceAs (Decidable False)
    | .currentTmp => inferInstanceAs (Decidable True)
    | .manifest num => inferInstanceAs (Decidable (num ≠ vs.manifestNum))

end VersionSet

def removeFiles : List FileName -> Proc Disk Unit
  | [] => pure ()
  | name :: names => do
      Proc.step fun d => d.remove name
      removeFiles names

/-- Removes the tables that are neither live nor protected, the other
manifests and a left temporary file, and returns their names. -/
def VersionSet.deleteObsolete (vs : VersionSet) (protect : List Nat) :
    Proc Disk (Except SetError (List FileName)) :=
  match vs.err with
  | some err => pure (.error err)
  | none => do
      let d <- Proc.get
      let doomed := d.entries.filter fun name => vs.Doomed protect name
      removeFiles doomed
      pure (.ok doomed)

def recover (d : Disk) : Except SetError (Recovered × Nat) :=
  d.current.elim (if d.tables = [] then .ok ({}, 0) else .error .currentMissing) fun num => do
    let r <- replay d num
    .ok (r, num)

def openSet (opts : Options) : Proc Disk (Except SetError VersionSet) := do
  let d <- Proc.get
  match recover d with
  | .error e => pure (.error e)
  | .ok r =>
      let vs : VersionSet := {
        opts := opts.withDefaults
        cur := r.1.version
        logNumber := r.1.logNumber
        nextFileNum := d.entries.foldl skipFile r.1.nextFileNum
        lastSeq := r.1.lastSeq
        manifestNum := r.2 }
      vs.rotate.orFail (fun r => pure (.error r.2)) fun vs' =>
        (vs'.deleteObsolete []).orFail (fun e => pure (.error e)) fun _ => pure (.ok vs')

end Manifest
end Basalt
