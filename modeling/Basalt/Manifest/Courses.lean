import Basalt.Lib.Keyed
import Basalt.Manifest.Ledger
import Basalt.Manifest.TornTail

/-!
# The course of the calls

Every directory that a call passes is one from which opening recovers what the
specification allows.
-/

namespace Basalt
namespace Manifest

open Lib Base

/-!
## The contents of a manifest
-/

def Recovered.state (r : Recovered) : State where
  version := r.version
  logNumber := r.logNumber
  lastSeq := r.lastSeq

/-- The edits of a manifest: those that are synced lead to `base`, and one more
that is not may lead to `next`.  A torn record may follow. -/
structure Image (m : ManifestFile) (base : Recovered) (next : Option Recovered)
    (t : Bytes) : Prop where
  tail : Wal.framing.Tail t
  records : exists qs ps, m.bytes = Wal.framing.frames (qs ++ ps) ++ t ∧
    m.synced = (Wal.framing.frames qs).length ∧
    (forall p, p ∈ qs ++ ps -> Wal.framing.valid p) ∧
    qs.foldlM applyRecord {} = .ok base ∧
    ((next = none ∧ ps = []) ∨
      exists p r, next = some r ∧ ps = [p] ∧ applyRecord base p = .ok r)

def Image.last (base : Recovered) (next : Option Recovered) : Recovered :=
  next.getD base

section Image

variable {m : ManifestFile} {base r : Recovered} {next : Option Recovered} {t : Bytes}

theorem Image.foldlM_records (h : Image m base next t) :
    exists ps, m.bytes = Wal.framing.frames ps ++ t ∧
      (forall p, p ∈ ps -> Wal.framing.valid p) ∧
      ps.foldlM applyRecord {} = .ok (Image.last base next) := by
  rcases h.records with ⟨qs, ps, hbytes, _, hvalid, hbase, hnext⟩
  refine ⟨qs ++ ps, hbytes, hvalid, ?_⟩
  rw [List.foldlM_append, hbase]
  rcases hnext with ⟨rfl, rfl⟩ | ⟨p, r, rfl, rfl, hp⟩
  · rfl
  · exact bind_eq_ok.mpr ⟨base, rfl, bind_eq_ok.mpr ⟨r, hp, rfl⟩⟩

theorem replay_of_image {d : Disk} (hnodup : d.manifestNums.Nodup) (hm : m ∈ d.manifests)
    (h : Image m base next t) :
    exists n, replay d m.num =
      .ok { Image.last base next with nextFileNum := n } ∧
      m.num < n ∧ (Image.last base next).nextFileNum ≤ n ∧
      (n = (Image.last base next).nextFileNum ∨ n = m.num + 1) := by
  rcases h.foldlM_records with ⟨ps, hbytes, hvalid, hfold⟩
  have hread : d.read m.num = some m.bytes := by
    rw [Disk.read, find?_key_of_mem hnodup hm]
    rfl
  have hrecords : Wal.framing.records m.bytes = (ps, t) := by
    rw [hbytes]
    exact Framing.records_frames_tail hvalid h.tail
  refine ⟨if m.num ≥ (Image.last base next).nextFileNum then m.num + 1
    else (Image.last base next).nextFileNum, ?_, ?_, ?_, ?_⟩
  · rw [replay_of_records hread hrecords hfold, checkTail_of_tail h.tail]
    rfl
  · split <;> lia
  · split <;> lia
  · split
    · exact Or.inr rfl
    · exact Or.inl rfl

theorem Image.cut (h : Image m base next t) (keep : Nat) :
    exists next' t', (next' = next ∨ next' = none) ∧
      Image { m with bytes := m.bytes.take (max keep m.synced) } base next' t' := by
  rcases h.records with ⟨qs, ps, hbytes, hsynced, hvalid, hbase, hnext⟩
  have hps : forall p, p ∈ ps -> Wal.framing.valid p := fun p hp =>
    hvalid p (List.mem_append_right _ hp)
  have hkeep : (Wal.framing.frames qs).length ≤ max keep m.synced := by
    rw [hsynced]
    exact Nat.le_max_right _ _
  rcases Framing.take_frames_append hps h.tail hkeep with ⟨rs, u, hrs, hu, hcut⟩
  rw [← hbytes] at hcut
  have hrs' : forall p, p ∈ qs ++ rs -> Wal.framing.valid p := by
    intro p hp
    rcases List.mem_append.mp hp with hp | hp
    · exact hvalid p (List.mem_append_left _ hp)
    · exact hps p (hrs.subset hp)
  rcases hnext with ⟨rfl, rfl⟩ | ⟨p, r, rfl, rfl, hp⟩
  · have hnil : rs = [] := List.prefix_nil.mp hrs
    exact ⟨none, u, Or.inl rfl, hu, qs, rs, hcut, hsynced, hrs', hbase, Or.inl ⟨rfl, hnil⟩⟩
  · cases rs with
    | nil => exact ⟨none, u, Or.inr rfl, hu, qs, [], hcut, hsynced, hrs', hbase, Or.inl ⟨rfl, rfl⟩⟩
    | cons q rs =>
        have hq : q :: rs = [p] := hrs.eq_of_length_le (by simp)
        exact ⟨some r, u, Or.inl rfl, hu, qs, q :: rs, hcut, hsynced, hrs', hbase,
          Or.inr ⟨p, r, rfl, hq, hp⟩⟩

theorem Image.write (h : Image m base none []) {payload : Bytes}
    (hvalid : Wal.framing.valid payload) (hp : applyRecord base payload = .ok r) :
    Image { m with bytes := m.bytes ++ Wal.frame payload } base (some r) [] := by
  rcases h.records with ⟨qs, ps, hbytes, hsynced, hall, hbase, hnext⟩
  rcases hnext with ⟨_, rfl⟩ | ⟨_, _, hsome, _⟩
  · refine ⟨Or.inl rfl, qs, [payload], ?_, hsynced, ?_, hbase, Or.inr ⟨payload, r, rfl, rfl, hp⟩⟩
    · show m.bytes ++ Wal.frame payload = _
      rw [hbytes, List.append_nil, List.append_nil, List.append_nil, Framing.frames_append,
        Framing.frames_cons, Framing.frames_nil, List.append_nil]
      rfl
    · intro p hp
      rcases List.mem_append.mp hp with hp | hp
      · exact hall p (List.mem_append_left _ hp)
      · rw [List.mem_singleton.mp hp]
        exact hvalid
  · cases hsome

theorem Image.sync (h : Image m base next []) :
    Image { m with synced := m.bytes.length } (Image.last base next) none [] := by
  rcases h.foldlM_records with ⟨ps, hbytes, hvalid, hfold⟩
  refine ⟨Or.inl rfl, ps, [], ?_, ?_, ?_, hfold, Or.inl ⟨rfl, rfl⟩⟩
  · rw [List.append_nil ps]
    exact hbytes
  · show m.bytes.length = _
    rw [hbytes, List.append_nil]
  · rw [List.append_nil]
    exact hvalid

theorem Image.first {payload : Bytes} (hvalid : Wal.framing.valid payload)
    (hp : applyRecord {} payload = .ok r) (num : Nat) :
    Image { num := num, bytes := Wal.frame payload, synced := (Wal.frame payload).length }
      r none [] := by
  have hframe : Wal.framing.frames [payload] = Wal.frame payload := List.append_nil _
  refine ⟨Or.inl rfl, [payload], [], ?_, ?_, ?_, ?_, Or.inl ⟨rfl, rfl⟩⟩
  · rw [List.append_nil, List.append_nil, hframe]
  · rw [hframe]
  · intro p hp
    rw [List.append_nil] at hp
    rw [List.mem_singleton.mp hp]
    exact hvalid
  · exact bind_eq_ok.mpr ⟨r, hp, rfl⟩

theorem applyRecord_encode {e : VersionEdit} (he : e.InRange) (h : base.apply e = .ok r) :
    applyRecord base e.encode = .ok r := by
  apply bind_eq_ok.mpr ⟨e, mapError_eq_ok.mpr (VersionEdit.decodeEdit_encode he), _⟩
  exact mapError_eq_ok.mpr h

end Image

/-!
## States that can be recovered
-/

/-- What is kept of every recovered state, after at most `n` calls. -/
structure Good (tables : List Nat) (n : Nat) (r : Recovered) : Prop where
  wellFormed : r.version.WellFormed
  files : forall l f, f ∈ r.version.files l -> f.InRange
  fits : r.version.Fits
  logNumber : r.logNumber < rangeLE 8
  lastSeq : r.lastSeq < rangeLE 8
  next : r.nextFileNum ≤ n + 1
  live : forall k, k ∈ r.version.live -> k ∈ tables

structure Numbered (d : Disk) (n : Nat) : Prop where
  nums : forall k, k ∈ d.nums -> k ≤ n
  nodup : d.manifestNums.Nodup

/-- The directory names a manifest whose edits are possible, or it is new. -/
inductive Recoverable (d : Disk) (n : Nat) (j : Ledger) : Prop where
  | fresh : Numbered d n -> d.current = none -> d.tables = [] -> j.Possible {} ->
      Recoverable d n j
  | named {m : ManifestFile} {base : Recovered} {next : Option Recovered} {t : Bytes} :
      Numbered d n -> m ∈ d.manifests -> d.current = some m.num -> Image m base next t ->
      Good d.tables n base -> j.Possible base.state ->
      (forall r, next = some r -> Good d.tables n r ∧ j.Possible r.state) ->
      Recoverable d n j

def VersionSet.recovered (vs : VersionSet) : Recovered where
  version := vs.cur
  logNumber := vs.logNumber
  nextFileNum := vs.nextFileNum
  lastSeq := vs.lastSeq

/-- An open set agrees with the manifest that CURRENT names, which is whole. -/
structure Live (d : Disk) (n : Nat) (j : Ledger) (vs : VersionSet) : Prop where
  numbered : Numbered d n
  err : vs.err = none
  good : Good d.tables n vs.recovered
  fresh : forall k, k ∈ d.nums -> k < vs.nextFileNum
  state : vs.recovered.state = j.state
  manifest : exists m base, m ∈ d.manifests ∧ m.num = vs.manifestNum ∧
    d.current = some m.num ∧ Image m base none [] ∧ Good d.tables n base ∧
    base.state = vs.recovered.state

section Kept

variable {d d' : Disk} {n : Nat} {j : Ledger} {r : Recovered} {vs : VersionSet}

theorem Good.mono {tables tables' : List Nat} {n n' : Nat} (h : Good tables n r)
    (hn : n ≤ n') (hlive : forall k, k ∈ r.version.live -> k ∈ tables -> k ∈ tables') :
    Good tables' n' r :=
  { h with
    next := Nat.le_trans h.next (Nat.succ_le_succ hn)
    live := fun k hk => hlive k hk (h.live k hk) }

theorem Live.recoverable_of {j' : Ledger} (h : Live d n j' vs)
    (hpossible : j.Possible vs.recovered.state) : Recoverable d n j := by
  rcases h.manifest with ⟨m, base, hm, _, hcurrent, himage, hgood, hstate⟩
  apply Recoverable.named h.numbered hm hcurrent himage hgood
  · rw [hstate]
    exact hpossible
  · intro r hr
    cases hr

theorem Live.recoverable (h : Live d n j vs) : Recoverable d n j :=
  h.recoverable_of (Or.inl h.state)

theorem Live.sound (h : Live d n j vs) : vs.Sound d j.state where
  version := congrArg State.version h.state
  logNumber := congrArg State.logNumber h.state
  lastSeq := congrArg State.lastSeq h.state
  next := h.fresh
  live := h.good.live

/-- A directory stays recoverable while CURRENT, the manifest that it names and
the tables that may be live stay as they are. -/
theorem Recoverable.same {n' : Nat} (h : Recoverable d n j) (hnum : Numbered d' n')
    (hn : n ≤ n') (hcurrent : d'.current = d.current)
    (hmanifests : forall m, m ∈ d.manifests -> d.current = some m.num -> m ∈ d'.manifests)
    (htables : d.tables = d'.tables) : Recoverable d' n' j := by
  cases h with
  | fresh _ hnone htab hpossible =>
      exact Recoverable.fresh hnum (hcurrent.trans hnone) (htables.symm.trans htab) hpossible
  | named _ hm hcur himage hgood hpossible hnext =>
      have hmono : forall {r : Recovered}, Good d.tables n r -> Good d'.tables n' r :=
        fun hr => hr.mono hn fun k _ hk => htables ▸ hk
      apply Recoverable.named hnum (hmanifests _ hm hcur) (hcurrent.trans hcur) himage
        (hmono hgood) hpossible
      intro r hr
      exact ⟨hmono (hnext r hr).left, (hnext r hr).right⟩

theorem Recoverable.cut (h : Recoverable d n j) (keep : Nat -> Nat) :
    Recoverable (d.cut keep) n j := by
  have hnums : (d.cut keep).manifestNums = d.manifestNums := by
    rw [Disk.manifestNums, Disk.manifestNums, Disk.cut, List.map_map]
    rfl
  have hnumbered : Numbered d n -> Numbered (d.cut keep) n := by
    intro hnum
    constructor
    · rw [Disk.nums, hnums]
      exact hnum.nums
    · rw [hnums]
      exact hnum.nodup
  cases h with
  | fresh hnum hnone htab hpossible =>
      exact Recoverable.fresh (hnumbered hnum) hnone htab hpossible
  | named hnum hm hcur himage hgood hpossible hnext =>
      rcases himage.cut (keep _) with ⟨next', t', hnext', himage'⟩
      apply Recoverable.named (hnumbered hnum) (List.mem_map_of_mem hm) hcur himage' hgood
        hpossible
      intro r hr
      rcases hnext' with rfl | rfl
      · exact hnext r hr
      · cases hr

theorem Recoverable.numbered (h : Recoverable d n j) : Numbered d n := by
  cases h with
  | fresh hnum | named hnum => exact hnum

theorem Numbered.mono {n' : Nat} (h : Numbered d n) (hn : n ≤ n') : Numbered d n' :=
  { h with nums := fun k hk => Nat.le_trans (h.nums k hk) hn }

theorem Recoverable.mono {n' : Nat} (h : Recoverable d n j) (hn : n ≤ n') :
    Recoverable d n' j :=
  h.same (h.numbered.mono hn) hn rfl (fun _ hm _ => hm) rfl

/-!
## Rotation
-/

def Disk.added (d : Disk) (m : ManifestFile) : Disk :=
  { d with manifests := d.manifests ++ [m] }

theorem Disk.update_added {m : ManifestFile} (h : m.num ∉ d.manifestNums)
    (f : ManifestFile -> ManifestFile) : (d.added m).update m.num f = d.added (f m) := by
  have hsame : d.manifests.map (fun x => if x.num = m.num then f x else x) = d.manifests := by
    apply (List.map_congr_left _).trans (List.map_id _)
    intro x hx
    have hne : x.num ≠ m.num := fun heq => h (heq ▸ List.mem_map_of_mem hx)
    exact if_neg hne
  rw [Disk.update, Disk.added, List.map_append, hsame]
  show { d with manifests := d.manifests ++ [if m.num = m.num then f m else m] } = _
  rw [if_pos rfl]
  rfl

theorem Numbered.added (h : Numbered d n) {m : ManifestFile} (hm : m.num ∉ d.manifestNums)
    (hle : m.num ≤ n + 1) : Numbered (d.added m) (n + 1) := by
  have hnums : (d.added m).manifestNums = d.manifestNums ++ [m.num] := by
    rw [Disk.manifestNums, Disk.added, List.map_append]
    rfl
  constructor
  · intro k hk
    rw [Disk.nums, hnums, ← List.append_assoc] at hk
    rcases List.mem_append.mp hk with hk | hk
    · exact Nat.le_succ_of_le (h.nums k hk)
    · rw [List.mem_singleton.mp hk]
      exact hle
  · rw [hnums]
    apply h.nodup.append (List.nodup_singleton _)
    intro k hk hk'
    rw [List.mem_singleton.mp hk'] at hk
    exact hm hk

theorem Recoverable.added (h : Recoverable d n j) {m : ManifestFile}
    (hm : m.num ∉ d.manifestNums) (hle : m.num ≤ n + 1) :
    Recoverable (d.added m) (n + 1) j :=
  h.same (h.numbered.added hm hle) (Nat.le_succ n) rfl
    (fun _ hx _ => List.mem_append_left _ hx) rfl

def VersionSet.rotated (vs : VersionSet) : Recovered :=
  { vs.recovered with nextFileNum := vs.nextFileNum + 1 }

theorem Good.inRange_snapshotEdit {tables : List Nat} (h : Good tables n vs.recovered)
    (hn : n + 2 < rangeLE 8) : vs.snapshotEdit.InRange where
  logNumber := fun k hk => by
    cases hk
    exact h.logNumber
  nextFileNum := fun k hk => by
    cases hk
    have hnext : vs.nextFileNum ≤ n + 1 := h.next
    lia
  lastSeq := fun k hk => by
    cases hk
    exact h.lastSeq
  addFiles := fun f hf => by
    rcases Version.mem_all.mp hf with ⟨l, hl⟩
    exact h.files l f hl
  deleteFiles := fun d hd => by cases hd

theorem encode_snapshotEdit (vs : VersionSet) :
    vs.snapshotEdit.encode =
      (putUvarint tagLogNumber ++ putUvarint vs.logNumber) ++
        ((putUvarint tagNextFileNum ++ putUvarint (vs.nextFileNum + 1)) ++
          ((putUvarint tagLastSeq ++ putUvarint vs.lastSeq) ++ (snapshot vs.cur).encode)) :=
  rfl

theorem length_encode_snapshotEdit (vs : VersionSet) :
    vs.snapshotEdit.encode.length ≤ (snapshot vs.cur).encode.length + 33 := by
  have hone : (putUvarint tagLogNumber).length = 1 := rfl
  have htwo : (putUvarint tagNextFileNum).length = 1 := rfl
  have hthree : (putUvarint tagLastSeq).length = 1 := rfl
  have hlog := length_putUvarint_le vs.logNumber
  have hnext := length_putUvarint_le (vs.nextFileNum + 1)
  have hseq := length_putUvarint_le vs.lastSeq
  rw [encode_snapshotEdit]
  simp only [List.length_append]
  lia

theorem le_length_encode_snapshotEdit {vs : VersionSet} (h : 128 ≤ vs.nextFileNum + 1) :
    (snapshot vs.cur).encode.length + 7 ≤ vs.snapshotEdit.encode.length := by
  have hone : (putUvarint tagLogNumber).length = 1 := rfl
  have htwo : (putUvarint tagNextFileNum).length = 1 := rfl
  have hthree : (putUvarint tagLastSeq).length = 1 := rfl
  have hlog := length_putUvarint_pos vs.logNumber
  have hnext := one_lt_length_putUvarint h
  have hseq := length_putUvarint_pos vs.lastSeq
  rw [encode_snapshotEdit]
  simp only [List.length_append]
  lia

theorem Good.valid_snapshotEdit {tables : List Nat} (h : Good tables n vs.recovered) :
    Wal.framing.valid vs.snapshotEdit.encode := by
  have hfits : (snapshot vs.cur).encode.length + 33 ≤ Wal.maxPayload := h.fits
  have hlen := length_encode_snapshotEdit vs
  exact Nat.le_trans hlen hfits

theorem Good.apply_snapshotEdit {tables : List Nat} (h : Good tables n vs.recovered) :
    ({} : Recovered).apply vs.snapshotEdit = .ok vs.rotated := by
  have hversion : applyEdit {} vs.snapshotEdit = .ok vs.cur :=
    h.wellFormed.applyEdit_snapshot vs.snapshotEdit rfl rfl
  exact bind_eq_ok.mpr ⟨vs.cur, hversion, rfl⟩

theorem Good.rotated {tables : List Nat} (h : Good tables n vs.recovered) :
    Good tables (n + 1) vs.rotated :=
  { h with next := Nat.succ_le_succ h.next }

def VersionSet.afterRotate (vs : VersionSet) : VersionSet :=
  { vs with
    nextFileNum := vs.nextFileNum + 1
    size := (Wal.frame vs.snapshotEdit.encode).length
    snapshotSize := (Wal.frame vs.snapshotEdit.encode).length
    manifestNum := vs.nextFileNum }

def VersionSet.newManifest (vs : VersionSet) (bytes : Bytes) (synced : Nat) : ManifestFile where
  num := vs.nextFileNum
  bytes := bytes
  synced := synced

def rotateStages (d : Disk) (vs : VersionSet) (buf : Bytes) : List Disk :=
  [d.added (vs.newManifest [] 0), d.added (vs.newManifest buf 0),
    d.added (vs.newManifest buf buf.length),
    { d.added (vs.newManifest buf buf.length) with tmp := true },
    { d.added (vs.newManifest buf buf.length) with
      current := some vs.nextFileNum, tmp := false }]

theorem takes_setCurrent (num : Nat) (d : Disk) :
    (setCurrent num).Takes d
      [{ d with tmp := true }, { d with current := some num, tmp := false }]
      { d with current := some num, tmp := false } () :=
  (Proc.Takes.step _ _).bind (Proc.Takes.step _ _)

theorem takes_rotate (hnew : vs.nextFileNum ∉ d.manifestNums)
    (hvalid : Wal.framing.valid vs.snapshotEdit.encode) :
    vs.rotate.Takes d (rotateStages d vs (Wal.frame vs.snapshotEdit.encode))
      { d.added (vs.newManifest (Wal.frame vs.snapshotEdit.encode)
          (Wal.frame vs.snapshotEdit.encode).length) with
        current := some vs.nextFileNum, tmp := false }
      (.ok vs.afterRotate) := by
  have hbuf : Wal.appendRecord [] vs.snapshotEdit.encode =
      .ok (Wal.frame vs.snapshotEdit.encode) := if_neg (Nat.not_lt.mpr hvalid)
  generalize hb : Wal.frame vs.snapshotEdit.encode = buf at hbuf ⊢
  have hcreate : (createManifest vs.nextFileNum).Takes d [d.added (vs.newManifest [] 0)]
      (d.added (vs.newManifest [] 0)) (.ok ()) := by
    apply (Proc.Takes.get d).after
    rw [if_neg hnew]
    exact (Proc.Takes.step _ _).bind (Proc.Takes.pure _ _)
  have hwrite : (writeManifest vs.nextFileNum buf).Takes (d.added (vs.newManifest [] 0))
      [d.added (vs.newManifest buf 0)] (d.added (vs.newManifest buf 0)) () := by
    have hupdate : (d.added (vs.newManifest [] 0)).update vs.nextFileNum (fun m =>
        { m with bytes := m.bytes ++ buf }) = d.added (vs.newManifest buf 0) :=
      Disk.update_added (m := vs.newManifest [] 0) hnew _
    rw [← hupdate]
    exact Proc.Takes.step _ _
  have hsync : (syncManifest vs.nextFileNum).Takes (d.added (vs.newManifest buf 0))
      [d.added (vs.newManifest buf buf.length)]
      (d.added (vs.newManifest buf buf.length)) () := by
    have hupdate : (d.added (vs.newManifest buf 0)).update vs.nextFileNum (fun m =>
        { m with synced := m.bytes.length }) = d.added (vs.newManifest buf buf.length) :=
      Disk.update_added (m := vs.newManifest buf 0) hnew _
    rw [← hupdate]
    exact Proc.Takes.step _ _
  have hafter : vs.afterRotate = { vs with
      nextFileNum := vs.nextFileNum + 1, size := buf.length, snapshotSize := buf.length,
      manifestNum := vs.nextFileNum } := by
    rw [VersionSet.afterRotate, hb]
  rw [VersionSet.rotate, hbuf, hafter]
  exact hcreate.orFail (hwrite.bind (hsync.bind
    ((takes_setCurrent vs.nextFileNum _).bind (Proc.Takes.pure _ _))))

/-- A rotation passes directories that are recoverable as before, until CURRENT
names the new manifest. -/
theorem course_rotate {j' : Ledger} (hrec : Recoverable d n j)
    (hpossible : j.Possible vs.recovered.state) (hgood : Good d.tables n vs.recovered)
    (hfresh : forall k, k ∈ d.nums -> k < vs.nextFileNum) (herr : vs.err = none)
    (hn : n + 2 < rangeLE 8) (hj' : j'.state = vs.recovered.state) :
    exists ts d', vs.rotate.Takes d ts d' (.ok vs.afterRotate) ∧
      (forall t, t ∈ ts -> Recoverable t (n + 1) j) ∧
      Live d' (n + 1) j' vs.afterRotate := by
  have hnew : vs.nextFileNum ∉ d.manifestNums := fun hmem =>
    Nat.lt_irrefl _ (hfresh _ (List.mem_append_right _ hmem))
  have hadded : forall bytes synced, Recoverable (d.added (vs.newManifest bytes synced))
      (n + 1) j := fun bytes synced =>
    hrec.added (m := vs.newManifest bytes synced) hnew hgood.next
  let buf := Wal.frame vs.snapshotEdit.encode
  let m := vs.newManifest buf buf.length
  let final : Disk := { d.added m with current := some vs.nextFileNum, tmp := false }
  have hnumbered : Numbered final (n + 1) :=
    let h := hrec.numbered.added (m := m) hnew hgood.next
    ⟨h.nums, h.nodup⟩
  have himage : Image m vs.rotated none [] :=
    Image.first hgood.valid_snapshotEdit
      (applyRecord_encode (hgood.inRange_snapshotEdit hn) hgood.apply_snapshotEdit) _
  have hmem : m ∈ final.manifests := List.mem_append_right _ List.mem_cons_self
  have hlive : Live final (n + 1) j' vs.afterRotate :=
    { numbered := hnumbered
      err := herr
      good := hgood.rotated
      fresh := by
        intro k hk
        have hk' : k ∈ d.nums ++ [vs.nextFileNum] := by
          rw [Disk.nums, Disk.manifestNums, List.append_assoc]
          show k ∈ d.tables ++ (d.manifests.map ManifestFile.num ++ [m].map ManifestFile.num)
          rw [← List.map_append]
          exact hk
        rcases List.mem_append.mp hk' with hk' | hk'
        · exact Nat.lt_succ_of_lt (hfresh k hk')
        · rw [List.mem_singleton.mp hk']
          exact Nat.lt_succ_self _
      state := hj'.symm
      manifest := ⟨m, vs.rotated, hmem, rfl, rfl, himage, hgood.rotated, rfl⟩ }
  refine ⟨_, final, takes_rotate hnew hgood.valid_snapshotEdit, ?_, hlive⟩
  intro t ht
  simp only [rotateStages, List.mem_cons, List.not_mem_nil, or_false] at ht
  rcases ht with rfl | rfl | rfl | rfl | rfl
  · exact hadded _ _
  · exact hadded _ _
  · exact hadded _ _
  · exact (hadded buf buf.length).same
      ⟨(hadded buf buf.length).numbered.nums, (hadded buf buf.length).numbered.nodup⟩
      (Nat.le_refl _) rfl (fun _ hx _ => hx) rfl
  · apply Recoverable.named hnumbered hmem rfl himage hgood.rotated hpossible
    intro r hr
    cases hr

/-!
## Collecting files
-/

theorem Numbered.of_sublist (h : Numbered d n) (htables : d'.tables.Sublist d.tables)
    (hmanifests : d'.manifests.Sublist d.manifests) : Numbered d' n := by
  have hnums : d'.manifestNums.Sublist d.manifestNums := hmanifests.map _
  constructor
  · intro k hk
    exact h.nums k ((htables.append hnums).subset hk)
  · exact h.nodup.sublist hnums

theorem Live.of_sublist (h : Live d n j vs) (htables : d'.tables.Sublist d.tables)
    (hmanifests : d'.manifests.Sublist d.manifests) (hcurrent : d'.current = d.current)
    (hlive : forall k, k ∈ vs.cur.live -> k ∈ d.tables -> k ∈ d'.tables)
    (hmanifest : forall m, m ∈ d.manifests -> m.num = vs.manifestNum -> m ∈ d'.manifests) :
    Live d' n j vs := by
  rcases h.manifest with ⟨m, base, hm, hnum, hcur, himage, hbase, hstate⟩
  have hversion : base.version = vs.cur := congrArg State.version hstate
  exact {
    numbered := h.numbered.of_sublist htables hmanifests
    err := h.err
    good := h.good.mono (Nat.le_refl n) hlive
    fresh := fun k hk => h.fresh k ((htables.append (hmanifests.map _)).subset hk)
    state := h.state
    manifest := ⟨m, base, hmanifest m hm hnum, hnum, hcurrent.trans hcur, himage,
      hbase.mono (Nat.le_refl n) (fun k hk => hlive k (hversion ▸ hk)), hstate⟩ }

theorem Live.remove (h : Live d n j vs) {protect : List Nat} {name : FileName}
    (hdoomed : vs.Doomed protect name) : Live (d.remove name) n j vs := by
  cases name with
  | table num =>
      refine h.of_sublist ?_ (List.Sublist.refl _) rfl ?_ ?_
      · exact List.filter_sublist
      · intro k hk hmem
        have hne : k ≠ num := fun heq => hdoomed.left (heq ▸ hk)
        exact List.mem_filter.mpr ⟨hmem, decide_eq_true hne⟩
      · exact fun _ hm _ => hm
  | current => exact hdoomed.elim
  | currentTmp =>
      exact h.of_sublist (List.Sublist.refl _) (List.Sublist.refl _) rfl
        (fun _ _ hmem => hmem) (fun _ hm _ => hm)
  | manifest num =>
      refine h.of_sublist (List.Sublist.refl _) ?_ rfl ?_ ?_
      · exact List.filter_sublist
      · exact fun _ _ hmem => hmem
      · intro m hm hnum
        have hne : m.num ≠ num := fun heq => hdoomed (heq.symm.trans hnum)
        exact List.mem_filter.mpr ⟨hm, decide_eq_true hne⟩

theorem course_removeFiles (h : Live d n j vs) {protect : List Nat} {names : List FileName}
    (hdoomed : forall name, name ∈ names -> vs.Doomed protect name) :
    exists ts d', (removeFiles names).Takes d ts d' () ∧
      (forall t, t ∈ ts -> Live t n j vs) ∧ Live d' n j vs := by
  induction names generalizing d with
  | nil =>
      refine ⟨[], d, Proc.Takes.pure _ _, ?_, h⟩
      intro t ht
      cases ht
  | cons name names ih =>
      have hremoved := h.remove (hdoomed name List.mem_cons_self)
      rcases ih hremoved (fun x hx => hdoomed x (List.mem_cons_of_mem name hx)) with
        ⟨ts, d', htakes, hpassed, hlast⟩
      refine ⟨d.remove name :: ts, d', (Proc.Takes.step _ _).bind htakes, ?_, hlast⟩
      intro t ht
      rcases List.mem_cons.mp ht with rfl | ht
      · exact hremoved
      · exact hpassed t ht

theorem course_deleteObsolete (h : Live d n j vs) (protect : List Nat) :
    exists ts d' names, (vs.deleteObsolete protect).Takes d ts d' (.ok names) ∧
      (forall t, t ∈ ts -> Live t n j vs) ∧ Live d' n j vs := by
  have hdoomed : forall name,
      name ∈ d.entries.filter (fun name => vs.Doomed protect name) ->
      vs.Doomed protect name :=
    fun name hname => of_decide_eq_true (List.mem_filter.mp hname).right
  rcases course_removeFiles h hdoomed with ⟨ts, d', htakes, hpassed, hlast⟩
  refine ⟨ts, d', d.entries.filter (fun name => vs.Doomed protect name), ?_, hpassed, hlast⟩
  rw [VersionSet.deleteObsolete, h.err]
  have hall := htakes.bind (f := fun _ => (pure (Except.ok
    (d.entries.filter fun name => vs.Doomed protect name)) :
      Proc Disk (Except SetError (List FileName)))) (Proc.Takes.pure _ _)
  rw [List.append_nil] at hall
  exact (Proc.Takes.get d).after hall

/-!
## Opening
-/

theorem wellFormed_of_recover {disk : Disk} {r : Recovered × Nat} (h : recover disk = .ok r) :
    r.1.version.WellFormed := by
  have hstep : forall (r : Recovered) (payload : Bytes) (r' : Recovered),
      r.version.WellFormed -> applyRecord r payload = .ok r' -> r'.version.WellFormed := by
    intro r payload r' hr happly
    rcases bind_eq_ok.mp happly with ⟨e, _, happly⟩
    rcases bind_eq_ok.mp (mapError_eq_ok.mp happly) with ⟨v, hv, hr'⟩
    cases hr'
    exact hr.applyEdit hv
  unfold recover at h
  cases hcurrent : disk.current with
  | none =>
      rw [hcurrent, Option.elim_none] at h
      split at h
      · cases h
        exact Version.wellFormed_empty
      · cases h
  | some num =>
      rw [hcurrent, Option.elim_some] at h
      rcases bind_eq_ok.mp h with ⟨r', hreplay, h⟩
      cases h
      unfold replay at hreplay
      split at hreplay
      · cases hreplay
      · rcases bind_eq_ok.mp hreplay with ⟨r, hscan, hreplay⟩
        rcases bind_eq_ok.mp hreplay with ⟨_, _, hreplay⟩
        cases hreplay
        rw [Wal.scanRecords_snd] at hscan
        have hwell : r.version.WellFormed := foldlM_invariant
          (fun b payload b' _ => hstep b payload b') Version.wellFormed_empty hscan
        exact hwell

theorem le_skipFile (next : Nat) (name : FileName) : next ≤ skipFile next name := by
  rw [skipFile]
  cases name.num? with
  | none => exact Nat.le_refl _
  | some num =>
      rw [Option.elim_some]
      split <;> lia

theorem le_foldl_skipFile (names : List FileName) (next : Nat) :
    next ≤ names.foldl skipFile next := by
  induction names generalizing next with
  | nil => exact Nat.le_refl _
  | cons name names ih => exact Nat.le_trans (le_skipFile next name) (ih _)

theorem lt_foldl_skipFile {names : List FileName} {name : FileName} {num : Nat}
    (hname : name ∈ names) (hnum : name.num? = some num) (next : Nat) :
    num < names.foldl skipFile next := by
  induction names generalizing next with
  | nil => cases hname
  | cons x names ih =>
      rcases List.mem_cons.mp hname with rfl | hname
      · have hlt : num < skipFile next name := by
          rw [skipFile, hnum, Option.elim_some]
          split <;> lia
        exact Nat.lt_of_lt_of_le hlt (le_foldl_skipFile names _)
      · exact ih hname _

theorem foldl_skipFile_le {names : List FileName} {next bound : Nat} (hnext : next ≤ bound)
    (hnames : forall name num, name ∈ names -> name.num? = some num -> num + 1 ≤ bound) :
    names.foldl skipFile next ≤ bound := by
  induction names generalizing next with
  | nil => exact hnext
  | cons x names ih =>
      apply ih
      · rw [skipFile]
        cases hnum : x.num? with
        | none => exact hnext
        | some num =>
            rw [Option.elim_some]
            split
            · exact hnames x num List.mem_cons_self hnum
            · exact hnext
      · exact fun name num hname => hnames name num (List.mem_cons_of_mem x hname)

theorem mem_nums {k : Nat} : k ∈ d.nums <-> exists name, name ∈ d.entries ∧ name.num? = some k := by
  constructor
  · intro hk
    rcases List.mem_append.mp hk with hk | hk
    · exact ⟨.table k, List.mem_append_left _ (List.mem_map_of_mem hk), rfl⟩
    · rcases List.mem_map.mp hk with ⟨m, hm, rfl⟩
      have hmem : FileName.manifest m.num ∈
          d.manifests.map fun m => FileName.manifest m.num :=
        List.mem_map_of_mem (f := fun m : ManifestFile => FileName.manifest m.num) hm
      exact ⟨.manifest m.num, List.mem_append_right _ (List.mem_append_right _
        (List.mem_append_right _ hmem)), rfl⟩
  · rintro ⟨name, hname, hnum⟩
    cases name with
    | table num =>
        cases hnum
        apply List.mem_append_left
        simpa [Disk.entries] using hname
    | current | currentTmp => cases hnum
    | manifest num =>
        cases hnum
        apply List.mem_append_right
        simpa [Disk.entries, Disk.manifestNums] using hname

theorem Recoverable.recover (h : Recoverable d n j) :
    exists r num, recover d = .ok (r, num) ∧ Good d.tables n r ∧ j.Possible r.state := by
  cases h with
  | fresh _ hnone htab hpossible =>
      refine ⟨{}, 0, ?_, ?_, hpossible⟩
      · rw [Manifest.recover, hnone]
        exact if_pos htab
      · exact {
          wellFormed := Version.wellFormed_empty
          files := fun l f hf => by cases hf
          fits := by decide
          logNumber := by decide
          lastSeq := by decide
          next := Nat.le_add_left 1 n
          live := fun k hk => by
            rcases Version.mem_live.mp hk with ⟨l, f, hf, _⟩
            cases hf }
  | @named m base next t hnum hm hcur himage hgood hpossible hnext =>
      rcases replay_of_image hnum.nodup hm himage with ⟨n', hreplay, _, _, hn'⟩
      have hlast : Good d.tables n (Image.last base next) ∧
          j.Possible (Image.last base next).state := by
        cases next with
        | none => exact ⟨hgood, hpossible⟩
        | some r => exact hnext r rfl
      have hle : n' ≤ n + 1 := by
        rcases hn' with rfl | rfl
        · exact hlast.left.next
        · have hmem : m.num ∈ d.nums :=
            List.mem_append_right _ (List.mem_map_of_mem hm)
          exact Nat.succ_le_succ (hnum.nums _ hmem)
      have hgood' : Good d.tables n { Image.last base next with nextFileNum := n' } :=
        { hlast.left with next := hle }
      refine ⟨_, m.num, ?_, hgood', hlast.right⟩
      rw [Manifest.recover, hcur]
      exact bind_eq_ok.mpr ⟨_, hreplay, rfl⟩

/-- Opening a recoverable directory recovers a possible state; all that it
passes is recoverable. -/
theorem course_openSet (h : Recoverable d n j) (hn : n + 2 < rangeLE 8) (opts : Options) :
    exists ts d' vs s, (openSet opts).Takes d ts d' (.ok vs) ∧ j.Possible s ∧
      (forall t, t ∈ ts -> Recoverable t (n + 1) j) ∧ Live d' (n + 1) { state := s } vs := by
  rcases h.recover with ⟨r, num, hrecover, hgood, hpossible⟩
  let vs : VersionSet := {
    opts := opts.withDefaults
    cur := r.version
    logNumber := r.logNumber
    nextFileNum := d.entries.foldl skipFile r.nextFileNum
    lastSeq := r.lastSeq
    manifestNum := num }
  have hnext : vs.nextFileNum ≤ n + 1 := by
    apply foldl_skipFile_le hgood.next
    intro name k hname hk
    exact Nat.succ_le_succ (h.numbered.nums k (mem_nums.mpr ⟨name, hname, hk⟩))
  have hgood' : Good d.tables n vs.recovered := { hgood with next := hnext }
  have hfresh : forall k, k ∈ d.nums -> k < vs.nextFileNum := by
    intro k hk
    rcases mem_nums.mp hk with ⟨name, hname, hnum⟩
    exact lt_foldl_skipFile hname hnum _
  have hpossible' : j.Possible vs.recovered.state := hpossible
  have hj' : ({ state := r.state } : Ledger).state = vs.recovered.state := rfl
  rcases course_rotate h hpossible' hgood' hfresh rfl hn hj' with
    ⟨ts, d1, hrotate, hpassed, hlive⟩
  rcases course_deleteObsolete hlive [] with ⟨ts', d2, names, hdelete, hpassed', hlive'⟩
  refine ⟨ts ++ (ts' ++ []), d2, vs.afterRotate, r.state, ?_, hpossible, ?_, hlive'⟩
  · apply (Proc.Takes.get d).after
    rw [hrecover]
    exact hrotate.orFail (hdelete.orFail (Proc.Takes.pure _ _))
  · intro t ht
    rw [List.append_nil] at ht
    rcases List.mem_append.mp ht with ht | ht
    · exact hpassed t ht
    · exact (hpassed' t ht).recoverable_of hpossible

/-!
## Applying an edit
-/

theorem Disk.manifestNums_update {f : ManifestFile -> ManifestFile}
    (hf : forall m, (f m).num = m.num) (num : Nat) :
    (d.update num f).manifestNums = d.manifestNums := by
  rw [Disk.manifestNums, Disk.manifestNums, Disk.update, List.map_map]
  apply List.map_congr_left
  intro m _
  show (if m.num = num then f m else m).num = m.num
  split
  · exact hf m
  · rfl

theorem Disk.mem_update {f : ManifestFile -> ManifestFile} {m : ManifestFile}
    (hm : m ∈ d.manifests) : f m ∈ (d.update m.num f).manifests := by
  have hmem : (if m.num = m.num then f m else m) ∈ (d.update m.num f).manifests :=
    List.mem_map_of_mem (f := fun x : ManifestFile => if x.num = m.num then f x else x) hm
  rw [if_pos rfl] at hmem
  exact hmem

theorem Numbered.update (h : Numbered d n) {f : ManifestFile -> ManifestFile}
    (hf : forall m, (f m).num = m.num) (num : Nat) : Numbered (d.update num f) n := by
  have hnums := Disk.manifestNums_update (d := d) hf num
  constructor
  · rw [Disk.nums, hnums]
    exact h.nums
  · rw [hnums]
    exact h.nodup

theorem Live.mono {n' : Nat} (h : Live d n j vs) (hn : n ≤ n') : Live d n' j vs := by
  rcases h.manifest with ⟨m, base, hm, hnum, hcur, himage, hbase, hstate⟩
  exact { h with
    numbered := h.numbered.mono hn
    good := h.good.mono hn fun _ _ hk => hk
    manifest := ⟨m, base, hm, hnum, hcur, himage, hbase.mono hn fun _ _ hk => hk, hstate⟩ }

theorem check_eq_ok {e : VersionEdit} {v : Version} (h : vs.check e = .ok v) :
    applyEdit vs.cur e = .ok v := by
  rw [VersionSet.check] at h
  split at h
  · cases h
  · split at h
    · cases h
    · exact mapError_eq_ok.mp h

def VersionSet.logged (vs : VersionSet) (e : VersionEdit) (v : Version) (buf : Bytes) :
    VersionSet :=
  { vs with
    size := vs.size + buf.length
    cur := v
    logNumber := e.logNumber.getD vs.logNumber
    lastSeq := e.lastSeq.getD vs.lastSeq }

theorem inRange_stamp {tables : List Nat} {e : VersionEdit} (he : e.InRange)
    (h : Good tables n vs.recovered) (hn : n + 2 < rangeLE 8) : (vs.stamp e).InRange where
  logNumber := fun k hk => by
    cases hk
    cases hlog : e.logNumber with
    | none => exact h.logNumber
    | some k => exact he.logNumber k hlog
  nextFileNum := fun k hk => by
    cases hk
    have hnext : vs.nextFileNum ≤ n + 1 := h.next
    lia
  lastSeq := fun k hk => by
    cases hk
    cases hseq : e.lastSeq with
    | none => exact h.lastSeq
    | some k => exact he.lastSeq k hseq
  addFiles := he.addFiles
  deleteFiles := he.deleteFiles

theorem Good.logged {e : VersionEdit} {v : Version} {buf : Bytes}
    (h : Good d.tables n vs.recovered) (haccepts : vs.Accepts d e)
    (hfit : vs.RecordsFit e) (hv : applyEdit vs.cur e = .ok v) (hn : n + 2 < rangeLE 8) :
    Good d.tables n (vs.logged e v buf).recovered where
  wellFormed := h.wellFormed.applyEdit hv
  files := fun l f hf => (mem_applyEdit hv hf).elim (h.files l f) (haccepts.inRange.addFiles f)
  fits := hfit.right v hv
  logNumber := (inRange_stamp haccepts.inRange h hn).logNumber _ rfl
  lastSeq := (inRange_stamp haccepts.inRange h hn).lastSeq _ rfl
  next := h.next
  live := fun k hk => by
    rcases Version.mem_live.mp hk with ⟨l, f, hf, rfl⟩
    rcases mem_applyEdit hv hf with hf | hf
    · exact h.live _ (Version.mem_live.mpr ⟨l, f, hf, rfl⟩)
    · exact haccepts.durable f hf

theorem apply_stamp {base : Recovered} {e : VersionEdit} {v : Version} (buf : Bytes)
    (hstate : base.state = vs.recovered.state) (hv : applyEdit vs.cur e = .ok v) :
    base.apply (vs.stamp e) = .ok (vs.logged e v buf).recovered := by
  have hversion : base.version = vs.cur := congrArg State.version hstate
  have hstamped : applyEdit base.version (vs.stamp e) = .ok v := by
    rw [hversion]
    exact hv
  exact bind_eq_ok.mpr ⟨v, hstamped, rfl⟩

theorem course_rotateFull {j' : Ledger} (h : Live d n j' vs)
    (hpossible : j.Possible vs.recovered.state) (hn : n + 2 < rangeLE 8) :
    exists ts d' vs', vs.rotateFull.Takes d ts d' (.ok vs') ∧
      (forall t, t ∈ ts -> Recoverable t (n + 1) j) ∧ Live d' (n + 1) j' vs' := by
  have hrec : Recoverable d n j := h.recoverable_of hpossible
  rw [VersionSet.rotateFull]
  split
  · rcases course_rotate hrec hpossible h.good h.fresh h.err hn h.state.symm with
      ⟨ts, d', htakes, hpassed, hlive⟩
    exact ⟨ts, d', _, htakes, hpassed, hlive⟩
  · refine ⟨[], d, vs, Proc.Takes.pure _ _, ?_, h.mono (Nat.le_succ n)⟩
    intro t ht
    cases ht

def ManifestFile.write (m : ManifestFile) (buf : Bytes) : ManifestFile :=
  { m with bytes := m.bytes ++ buf }

def ManifestFile.sync (m : ManifestFile) : ManifestFile :=
  { m with synced := m.bytes.length }

def Disk.written (d : Disk) (num : Nat) (buf : Bytes) : Disk :=
  d.update num fun m => m.write buf

def Disk.synced (d : Disk) (num : Nat) : Disk :=
  d.update num ManifestFile.sync

theorem Live.log (h : Live d n j vs) {e : VersionEdit} {v : Version} {buf : Bytes}
    (he : e.InRange) (hv : applyEdit vs.cur e = .ok v)
    (hbuf : Wal.appendRecord [] (vs.stamp e).encode = .ok buf) (hn : n + 2 < rangeLE 8) :
    exists (m : ManifestFile) (base : Recovered), m.num = vs.manifestNum ∧
      d.current = some m.num ∧ Good d.tables n base ∧ base.state = j.state ∧
      Image (m.write buf) base (some (vs.logged e v buf).recovered) [] ∧
      m.write buf ∈ (d.written vs.manifestNum buf).manifests ∧
      (m.write buf).sync ∈ ((d.written vs.manifestNum buf).synced vs.manifestNum).manifests := by
  rcases h.manifest with ⟨m, base, hm, hnum, hcurrent, himage, hbase, hstate⟩
  have hvalid : (vs.stamp e).encode.length ≤ Wal.maxPayload := by
    by_contra hlong
    rw [Wal.appendRecord, if_pos (Nat.not_le.mp hlong)] at hbuf
    cases hbuf
  have hframe : buf = Wal.frame (vs.stamp e).encode := by
    rw [Wal.appendRecord, if_neg (Nat.not_lt.mpr hvalid)] at hbuf
    cases hbuf
    rfl
  have hrecord : applyRecord base (vs.stamp e).encode = .ok (vs.logged e v buf).recovered :=
    applyRecord_encode (inRange_stamp he h.good hn) (apply_stamp buf hstate hv)
  have himage' : Image (m.write buf) base (some (vs.logged e v buf).recovered) [] := by
    rw [hframe] at hrecord ⊢
    exact himage.write hvalid hrecord
  have hm1 : m.write buf ∈ (d.written vs.manifestNum buf).manifests := by
    rw [← hnum]
    exact Disk.mem_update (f := fun m => m.write buf) hm
  have hm2 : (m.write buf).sync ∈
      ((d.written vs.manifestNum buf).synced vs.manifestNum).manifests := by
    have hmem := Disk.mem_update (f := ManifestFile.sync) hm1
    have hnum' : (m.write buf).num = vs.manifestNum := hnum
    rw [hnum'] at hmem
    exact hmem
  exact ⟨m, base, hnum, hcurrent, hbase, hstate.trans h.state, himage', hm1, hm2⟩

theorem Disk.nums_synced (num : Nat) (buf : Bytes) :
    ((d.written num buf).synced num).nums = d.nums := by
  have hsync : forall m, (ManifestFile.sync m).num = m.num := fun _ => rfl
  have hwrite : forall m, (ManifestFile.write m buf).num = m.num := fun _ => rfl
  rw [Disk.nums, Disk.synced, Disk.manifestNums_update hsync, Disk.written,
    Disk.manifestNums_update hwrite]
  rfl

theorem Numbered.written (h : Numbered d n) (num : Nat) (buf : Bytes) :
    Numbered (d.written num buf) n :=
  h.update (f := fun m => m.write buf) (fun _ => rfl) num

theorem Numbered.synced (h : Numbered d n) (num : Nat) : Numbered (d.synced num) n :=
  h.update (f := ManifestFile.sync) (fun _ => rfl) num

/-- An accepted edit is logged and acknowledged; when the call is cut short, it
is recovered wholly or not at all. -/
theorem course_apply (h : Live d n j vs) {e : VersionEdit} (haccepts : vs.Accepts d e)
    (hfit : vs.RecordsFit e) (hn : n + 2 < rangeLE 8) :
    exists ts d' vs' s, (vs.apply e).Takes d ts d' (vs', .ok ()) ∧ j.state.apply e = .ok s ∧
      (forall t, t ∈ ts -> Recoverable t (n + 1) (j.crashed (.apply e))) ∧
      Live d' (n + 1) { state := s } vs' := by
  rcases haccepts.check with ⟨v, hcheck⟩
  have hv := check_eq_ok hcheck
  let buf := Wal.frame (vs.stamp e).encode
  let next := vs.logged e v buf
  let d1 := d.written vs.manifestNum buf
  let d2 := d1.synced vs.manifestNum
  have hbuf : Wal.appendRecord [] (vs.stamp e).encode = .ok buf :=
    if_neg (Nat.not_lt.mpr hfit.left)
  rcases h.log haccepts.inRange hv hbuf hn with
    ⟨m, base, hnum, hcurrent, hbase, hstate, himage, hm1, hm2⟩
  have hspec : j.state.apply e = .ok next.recovered.state := by
    rw [← h.state]
    exact bind_eq_ok.mpr ⟨v, hv, rfl⟩
  have hgood : Good d.tables n next.recovered := h.good.logged haccepts hfit hv hn
  have hpossible : (j.crashed (.apply e)).Possible next.recovered.state :=
    Or.inr ⟨e, rfl, hspec⟩
  have hnum1 : Numbered d1 n := h.numbered.written _ _
  have hnum2 : Numbered d2 n := hnum1.synced _
  have hrec1 : Recoverable d1 (n + 1) (j.crashed (.apply e)) := by
    refine Recoverable.mono (Recoverable.named hnum1 hm1 hcurrent himage hbase ?_ ?_)
      (Nat.le_succ n)
    · exact Or.inl hstate
    · intro r hr
      cases hr
      exact ⟨hgood, hpossible⟩
  have hfresh : forall k, k ∈ d2.nums -> k < next.nextFileNum := by
    intro k hk
    rw [Disk.nums_synced] at hk
    exact h.fresh k hk
  have hlive : Live d2 n { state := next.recovered.state } next :=
    { numbered := hnum2
      err := h.err
      good := hgood
      fresh := hfresh
      state := rfl
      manifest := ⟨_, next.recovered, hm2, hnum, hcurrent, himage.sync, hgood, rfl⟩ }
  have hrec2 : Recoverable d2 (n + 1) (j.crashed (.apply e)) :=
    (hlive.recoverable_of hpossible).mono (Nat.le_succ n)
  rcases course_rotateFull hlive hpossible hn with ⟨ts, d3, vs', hrotate, hpassed, hlast⟩
  refine ⟨[d1] ++ ([d2] ++ (ts ++ [])), d3, vs', next.recovered.state, ?_, hspec, ?_, hlast⟩
  · rw [VersionSet.apply, h.err, hcheck]
    show (vs.logEdit e v).Takes _ _ _ _
    rw [VersionSet.logEdit, hbuf]
    exact (Proc.Takes.step _ _).bind ((Proc.Takes.step _ _).bind
      (hrotate.orFail (Proc.Takes.pure _ _)))
  · intro t ht
    rw [List.append_nil] at ht
    rcases List.mem_append.mp ht with ht | ht
    · rw [List.mem_singleton.mp ht]
      exact hrec1
    · rcases List.mem_append.mp ht with ht | ht
      · rw [List.mem_singleton.mp ht]
        exact hrec2
      · exact hpassed t ht

end Kept

end Manifest
end Basalt
