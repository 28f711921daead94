import Basalt.Manifest.Courses

/-!
# Recovery of the manifest

Every state of the directory that a crash can leave is one from which opening
recovers the acknowledged edits, as long as the records fit their length field.
-/

namespace Basalt
namespace Manifest

open Lib Base
open scoped Evaluate

/-!
## Every run
-/

structure Matches (p : Process) (j : Ledger) : Prop where
  recoverable : Recoverable p.disk p.calls j
  live : forall vs, p.set = some vs -> Live p.disk p.calls j vs

/-- What a call does: what it passes is recoverable, and what it ends in is
described by the specification. -/
def Course (p : Process) (j : Ledger) (c : Call) : Prop :=
  exists ts d' set' j', (program p.set c).Takes p.disk ts d' set' ∧
    (forall t, t ∈ ts -> Recoverable t (p.calls + 1) (j.crashed c)) ∧
    Ledger.Step j (.call c) j' ∧
    Matches { disk := d', set := set', calls := p.calls + 1 } j'

section Course

variable {p : Process} {j : Ledger} {d : Disk} {n : Nat} {vs : VersionSet}

theorem Live.matches (h : Live d n j vs) :
    Matches { disk := d, set := some vs, calls := n } j where
  recoverable := h.recoverable
  live := fun _ hvs => by
    cases hvs
    exact h

theorem Matches.idle (h : Matches p j) :
    Matches { disk := p.disk, set := none, calls := p.calls + 1 } j where
  recoverable := h.recoverable.mono (Nat.le_succ _)
  live := fun _ hvs => by cases hvs

theorem Matches.course_openSet (h : Matches p j) (hn : p.calls + 2 < rangeLE 8)
    (opts : Options) : Course p j (.openSet opts) := by
  rcases Manifest.course_openSet h.recoverable hn opts with
    ⟨ts, d', vs, s, htakes, hpossible, hpassed, hlive⟩
  have hall : (openSet opts >>= fun r => pure r.toOption).Takes p.disk (ts ++ []) d'
      (some vs) := htakes.bind (Proc.Takes.pure _ _)
  rw [List.append_nil] at hall
  exact ⟨ts, d', some vs, { state := s }, hall, hpassed, Ledger.Step.opened hpossible,
    hlive.matches⟩

theorem Matches.course_apply (h : Matches p j) {e : VersionEdit} (hset : p.set = some vs)
    (haccepts : vs.Accepts p.disk e) (hfit : vs.RecordsFit e)
    (hn : p.calls + 2 < rangeLE 8) : Course p j (.apply e) := by
  rcases Manifest.course_apply (h.live vs hset) haccepts hfit hn with
    ⟨ts, d', vs', s, htakes, hspec, hpassed, hlive⟩
  have hall : (vs.apply e >>= fun r => pure (applied r)).Takes p.disk (ts ++ []) d'
      (some vs') := htakes.bind (Proc.Takes.pure _ _)
  rw [List.append_nil] at hall
  refine ⟨ts, d', some vs', { state := s }, ?_, hpassed, Ledger.Step.applied hspec,
    hlive.matches⟩
  rw [hset]
  exact hall

theorem Live.alloc (h : Live d n j vs) : Live d (n + 1) j vs.allocFileNum.2 := by
  rcases h.mono (Nat.le_succ n) with ⟨hnumbered, herr, hgood, hfresh, hstate, hmanifest⟩
  exact {
    numbered := hnumbered
    err := herr
    good := { hgood with next := Nat.succ_le_succ h.good.next }
    fresh := fun k hk => Nat.lt_succ_of_lt (hfresh k hk)
    state := hstate
    manifest := hmanifest }

theorem Matches.course_allocFileNum (h : Matches p j) : Course p j .allocFileNum := by
  cases hset : p.set with
  | none =>
      refine ⟨[], p.disk, none, j, ?_, ?_, Ledger.Step.allocated, h.idle⟩
      · rw [hset]
        exact Proc.Takes.pure _ _
      · intro t ht
        cases ht
  | some vs =>
      refine ⟨[], p.disk, some vs.allocFileNum.2, j, ?_, ?_, Ledger.Step.allocated,
        (h.live vs hset).alloc.matches⟩
      · rw [hset]
        exact Proc.Takes.pure _ _
      · intro t ht
        cases ht

theorem Matches.course_deleteObsolete (h : Matches p j) (protect : List Nat) :
    Course p j (.deleteObsolete protect) := by
  cases hset : p.set with
  | none =>
      refine ⟨[], p.disk, none, j, ?_, ?_, Ledger.Step.collected, h.idle⟩
      · rw [hset]
        exact Proc.Takes.pure _ _
      · intro t ht
        cases ht
  | some vs =>
      rcases Manifest.course_deleteObsolete (h.live vs hset) protect with
        ⟨ts, d', names, htakes, hpassed, hlive⟩
      have hall : (vs.deleteObsolete protect >>= fun _ => pure (some vs)).Takes p.disk
          (ts ++ []) d' (some vs) := htakes.bind (Proc.Takes.pure _ _)
      rw [List.append_nil] at hall
      refine ⟨ts, d', some vs, j, ?_, ?_, Ledger.Step.collected,
        (hlive.mono (Nat.le_succ _)).matches⟩
      · rw [hset]
        exact hall
      · intro t ht
        exact ((hpassed t ht).mono (Nat.le_succ _)).recoverable

theorem Live.writeTable (h : Live d n j vs) {num : Nat} (hnum : num < vs.nextFileNum) :
    Live { d with tables := d.tables ++ [num] } n j vs := by
  have hmem : forall {k : Nat}, k ∈ ({ d with tables := d.tables ++ [num] } : Disk).nums ->
      k ∈ d.nums ∨ k = num := by
    intro k hk
    rcases List.mem_append.mp hk with hk | hk
    · rcases List.mem_append.mp hk with hk | hk
      · exact Or.inl (List.mem_append_left _ hk)
      · exact Or.inr (List.mem_singleton.mp hk)
    · exact Or.inl (List.mem_append_right _ hk)
  have hlive : forall k, k ∈ d.tables -> k ∈ d.tables ++ [num] :=
    fun _ hk => List.mem_append_left _ hk
  rcases h.manifest with ⟨m, base, hm, hmnum, hcur, himage, hbase, hstate⟩
  have hnext : vs.nextFileNum ≤ n + 1 := h.good.next
  exact {
    numbered :=
      { nums := fun k hk => by
          rcases hmem hk with hk | rfl
          · exact h.numbered.nums k hk
          · lia
        nodup := h.numbered.nodup }
    err := h.err
    good := h.good.mono (Nat.le_refl n) fun k _ hk => hlive k hk
    fresh := fun k hk => by
      rcases hmem hk with hk | rfl
      · exact h.fresh k hk
      · exact hnum
    state := h.state
    manifest := ⟨m, base, hm, hmnum, hcur, himage,
      hbase.mono (Nat.le_refl n) (fun k _ hk => hlive k hk), hstate⟩ }

theorem Matches.course_writeTable (h : Matches p j) {num : Nat} (hset : p.set = some vs)
    (hnum : num < vs.nextFileNum) : Course p j (.writeTable num) := by
  have hlive := ((h.live vs hset).writeTable hnum).mono (Nat.le_succ _)
  refine ⟨[{ p.disk with tables := p.disk.tables ++ [num] }], _, some vs, j, ?_, ?_,
    Ledger.Step.written, hlive.matches⟩
  · rw [hset]
    exact (Proc.Takes.step _ _).bind (Proc.Takes.pure _ _)
  · intro t ht
    rw [List.mem_singleton.mp ht]
    exact hlive.recoverable

theorem Process.WithinLimits.calls {c : Call} (h : p.WithinLimits c) :
    p.calls + 3 < rangeLE 8 := by
  cases c with
  | apply e => exact h.left
  | openSet | allocFileNum | deleteObsolete | writeTable => exact h

theorem Matches.course (h : Matches p j) {c : Call} (hpromised : p.Promised c)
    (hlimits : p.WithinLimits c) : Course p j c := by
  cases c with
  | openSet opts => exact h.course_openSet (Nat.lt_of_succ_lt hlimits.calls) opts
  | apply e =>
      rcases hpromised with ⟨vs, hset, haccepts⟩
      exact h.course_apply hset haccepts (hlimits.right vs hset)
        (Nat.lt_of_succ_lt hlimits.calls)
  | allocFileNum => exact h.course_allocFileNum
  | deleteObsolete protect => exact h.course_deleteObsolete protect
  | writeTable num =>
      rcases hpromised with ⟨vs, hset, hnum⟩
      exact h.course_writeTable hset hnum

theorem Ledger.Step.crashed {c : Call} {j' : Ledger} (h : Ledger.Step j (.call c) j')
    {s : State} (hs : j'.Possible s) : (j.crashed c).Possible s := by
  cases h with
  | opened hpossible =>
      rcases hs with rfl | ⟨e, he, _⟩
      · exact hpossible
      · cases he
  | applied happly =>
      rcases hs with rfl | ⟨e, he, _⟩
      · exact Or.inr ⟨_, rfl, happly⟩
      · cases he
  | allocated | collected | written => exact hs

theorem Recoverable.weaken {j' : Ledger} (h : Recoverable d n j)
    (hj : forall s, j.Possible s -> j'.Possible s) : Recoverable d n j' := by
  cases h with
  | fresh hnum hnone htab hpossible =>
      exact Recoverable.fresh hnum hnone htab (hj _ hpossible)
  | named hnum hm hcur himage hgood hpossible hnext =>
      exact Recoverable.named hnum hm hcur himage hgood (hj _ hpossible)
        fun r hr => ⟨(hnext r hr).left, hj _ (hnext r hr).right⟩

theorem Matches.before (h : Matches p j) {c : Call} (hpromised : p.Promised c) :
    Recoverable p.disk p.calls (j.crashed c) := by
  cases c with
  | apply e =>
      rcases hpromised with ⟨vs, hset, _⟩
      have hlive := h.live vs hset
      have hacked : Live p.disk p.calls { state := j.state } vs := { hlive with }
      apply hacked.recoverable.weaken
      intro s hs
      rcases hs with rfl | ⟨e', he', _⟩
      · exact Or.inl rfl
      · cases he'
  | openSet | allocFileNum | deleteObsolete | writeTable => exact h.recoverable

theorem Matches.exec {a : Action} (h : Matches p j) (hpromised : p.Promised a.made)
    (hlimits : p.WithinLimits a.made) :
    exists j', Ledger.Step j a j' ∧ Matches (p.exec a) j' := by
  rcases h.course hpromised hlimits with ⟨ts, d', set', j', htakes, hpassed, hstep, hmatch⟩
  cases a with
  | call c =>
      refine ⟨j', hstep, ?_⟩
      have hrun : program p.set c p.disk =
          { passed := ts, final := d', result := set' } := htakes
      rw [Process.exec, hrun]
      exact hmatch
  | crash c steps keep =>
      have hstopped : Recoverable ((program p.set c).stopped steps p.disk) (p.calls + 1)
          (j.crashed c) := by
        rcases htakes.stopped (n := steps) with heq | hmem | heq
        · have heq' : (program p.set c).stopped steps p.disk = p.disk := heq
          rw [heq']
          exact (h.before hpromised).mono (Nat.le_succ _)
        · exact hpassed _ hmem
        · have heq' : (program p.set c).stopped steps p.disk = d' := heq
          rw [heq']
          exact hmatch.recoverable.weaken fun s hs => hstep.crashed hs
      refine ⟨j.crashed c, Ledger.Step.crash, hstopped.cut keep, ?_⟩
      intro vs hvs
      cases hvs

theorem Matches.recovers (h : Matches p j) (hn : p.calls + 2 < rangeLE 8) :
    p.Recovers j := by
  constructor
  · intro opts
    rcases Manifest.course_openSet h.recoverable hn opts with
      ⟨ts, d', vs, s, htakes, hpossible, _, hlive⟩
    have hrun : openSet opts p.disk = { passed := ts, final := d', result := .ok vs } := htakes
    refine ⟨vs, s, hpossible, ?_⟩
    rw [hrun]
    exact ⟨rfl, hlive.sound⟩
  · intro vs hvs
    exact (h.live vs hvs).sound

end Course

def Process.Allowed (p : Process) (a : Action) : Prop :=
  p.Promised a.made ∧ p.WithinLimits a.made

instance (p : Process) (a : Action) : Decidable (p.Allowed a) :=
  inferInstanceAs (Decidable (p.Promised a.made ∧ p.WithinLimits a.made))

/-- Every state that such a run reaches is described by the specification. -/
theorem matches_of_guarded {as : List Action}
    (h : Guarded Process.exec Process.Allowed {} as) :
    exists j, Along Ledger.Step {} as j ∧ Matches (as.foldl Process.exec {}) j ∧
      (as.foldl Process.exec {}).calls + 2 < rangeLE 8 := by
  have hstart : Matches {} {} ∧ ({} : Process).calls + 2 < rangeLE 8 := by
    refine ⟨⟨Recoverable.fresh ⟨?_, List.nodup_nil⟩ rfl rfl (Or.inl rfl), ?_⟩, by decide⟩
    · intro k hk
      cases hk
    · intro vs hvs
      cases hvs
  have hstep : forall p j a, (Matches p j ∧ p.calls + 2 < rangeLE 8) -> p.Allowed a ->
      exists j', Ledger.Step j a j' ∧
        Matches (p.exec a) j' ∧ (p.exec a).calls + 2 < rangeLE 8 := by
    intro p j a hp ha
    rcases hp.left.exec ha.left ha.right with ⟨j', hj', hmatch⟩
    have hcalls : (p.exec a).calls = p.calls + 1 := by cases a <;> rfl
    have hlimit := ha.right.calls
    refine ⟨j', hj', hmatch, ?_⟩
    rw [hcalls]
    lia
  exact Along.of_guarded hstep hstart h

/-- In every state that such a run reaches, the acknowledged edits are
recovered, with or without the last one that was not acknowledged. -/
theorem recovers_of_withinLimits {as : List Action}
    (h : Guarded Process.exec Process.Allowed {} as) :
    exists j, Along Ledger.Step {} as j ∧ (as.foldl Process.exec {}).Recovers j := by
  rcases matches_of_guarded h with ⟨j, hrun, hmatch, hcalls⟩
  exact ⟨j, hrun, hmatch.recovers hcalls⟩

/-- A table is added, and the edit that would remove it is cut short when its
record is half written. -/
def crashedRun : List Action :=
  [.call (.openSet {}), .call .allocFileNum, .call (.writeTable 2),
    .call (.apply { addFiles := [{
      level := 1, fileNum := 2, size := 10,
      smallest := List.replicate 8 0, largest := List.replicate 9 0 }] }),
    .call (.deleteObsolete []),
    .crash (.apply { deleteFiles := [{ level := 1, fileNum := 2 }] }) 1 (fun _ => 60),
    .call (.openSet {})]

theorem recovers_of_withinLimits_crash :
    exists j, Along Ledger.Step {} crashedRun j ∧ (crashedRun.foldl Process.exec {}).Recovers j :=
  recovers_of_withinLimits (by decide +kernel)

/-!
## A snapshot that does not fit

Every edit fits the length field of a record, but the snapshot of what they add
up to need not.  A rotation panics then, and opening always rotates.
-/

section TooLong

variable {d : Disk} {n : Nat} {j : Ledger} {vs : VersionSet} {e : VersionEdit} {v : Version}

theorem takes_rotate_of_tooLong (hnew : vs.nextFileNum ∉ d.manifestNums)
    (hlong : Wal.maxPayload < vs.snapshotEdit.encode.length) :
    vs.rotate.Takes d [d.added (vs.newManifest [] 0)] (d.added (vs.newManifest [] 0))
      (.error ({ vs with nextFileNum := vs.nextFileNum + 1 }, .panic .payloadTooLong)) := by
  have hbuf : Wal.appendRecord [] vs.snapshotEdit.encode = .error .payloadTooLong :=
    if_pos hlong
  have hcreate : (createManifest vs.nextFileNum).Takes d [d.added (vs.newManifest [] 0)]
      (d.added (vs.newManifest [] 0)) (.ok ()) := by
    apply (Proc.Takes.get d).after
    rw [if_neg hnew]
    exact (Proc.Takes.step _ _).bind (Proc.Takes.pure _ _)
  rw [VersionSet.rotate, hbuf]
  exact hcreate.orFail (Proc.Takes.pure _ _)

theorem length_encode_of_mem {f : FileMeta} (hf : f ∈ v.all) :
    (Field.addFile f).encode.length ≤ (snapshot v).encode.length := by
  have hmem : (Field.addFile f).encode ∈ (snapshot v).fields.map Field.encode := by
    apply List.mem_map_of_mem
    show Field.addFile f ∈ v.all.map Field.addFile ++ []
    rw [List.append_nil]
    exact List.mem_map_of_mem hf
  rw [VersionEdit.encode]
  exact (List.sublist_flatten_of_mem hmem).length_le

theorem openSet_of_tooLong {m : ManifestFile} {r : Recovered} {f : FileMeta}
    (hnodup : d.manifestNums.Nodup) (hm : m ∈ d.manifests) (hcurrent : d.current = some m.num)
    (himage : Image m r none []) (hf : f ∈ r.version.all) (hnext : 127 ≤ r.nextFileNum)
    (hlong : Wal.maxPayload < (Field.addFile f).encode.length + 7) (opts : Options) :
    (openSet opts d).result = .error (.panic .payloadTooLong) := by
  rcases replay_of_image hnodup hm himage with ⟨n', hreplay, _, hle, _⟩
  have hrecover : recover d = .ok ({ r with nextFileNum := n' }, m.num) := by
    rw [recover, hcurrent]
    exact bind_eq_ok.mpr ⟨_, hreplay, rfl⟩
  let vs : VersionSet := {
    opts := opts.withDefaults
    cur := r.version
    logNumber := r.logNumber
    nextFileNum := d.entries.foldl skipFile n'
    lastSeq := r.lastSeq
    manifestNum := m.num }
  have hnew : vs.nextFileNum ∉ d.manifestNums := by
    intro hmem
    rcases mem_nums.mp (List.mem_append_right _ hmem) with ⟨name, hname, hnum⟩
    exact Nat.lt_irrefl _ (lt_foldl_skipFile hname hnum n')
  have hcounter : 128 ≤ vs.nextFileNum + 1 :=
    Nat.succ_le_succ (Nat.le_trans (Nat.le_trans hnext hle) (le_foldl_skipFile d.entries n'))
  have hlong' : Wal.maxPayload < vs.snapshotEdit.encode.length := by
    have htable := length_encode_of_mem hf
    have hcounters := le_length_encode_snapshotEdit hcounter
    exact Nat.lt_of_lt_of_le hlong (Nat.le_trans (Nat.add_le_add_right htable 7) hcounters)
  have htakes : (openSet opts).Takes d [d.added (vs.newManifest [] 0)]
      (d.added (vs.newManifest [] 0)) (.error (.panic .payloadTooLong)) := by
    apply (Proc.Takes.get d).after
    rw [hrecover]
    exact (takes_rotate_of_tooLong hnew hlong').bind (Proc.Takes.pure _ _)
  rw [htakes]

/-- An edit is durable although the rotation after it panics, or is still to
come. -/
theorem apply_of_tooLong {buf : Bytes} (h : Live d n j vs) (he : e.InRange)
    (hcheck : vs.check e = .ok v)
    (hbuf : Wal.appendRecord [] (vs.stamp e).encode = .ok buf) (hn : n + 2 < rangeLE 8)
    (hlong : Wal.maxPayload < (vs.logged e v buf).snapshotEdit.encode.length) :
    exists m, m ∈ (vs.apply e d).final.manifests ∧
      (vs.apply e d).final.current = some m.num ∧
      (vs.apply e d).final.manifestNums.Nodup ∧
      Image m (vs.logged e v buf).recovered none [] := by
  rcases h.log he (check_eq_ok hcheck) hbuf hn with
    ⟨m, base, hnum, hcurrent, _, _, himage, _, hm⟩
  let d1 := d.written vs.manifestNum buf
  let d2 := d1.synced vs.manifestNum
  have hnumbered : Numbered d2 n := (h.numbered.written _ _).synced _
  have hnew : (vs.logged e v buf).nextFileNum ∉ d2.manifestNums := by
    intro hmem
    have hmem' : (vs.logged e v buf).nextFileNum ∈ d2.nums := List.mem_append_right _ hmem
    rw [Disk.nums_synced] at hmem'
    exact Nat.lt_irrefl _ (h.fresh _ hmem')
  have hfinal : (vs.apply e d).final = ((vs.logged e v buf).rotateFull d2).final := by
    rw [VersionSet.apply, h.err, hcheck]
    show (vs.logEdit e v d).final = _
    rw [VersionSet.logEdit, hbuf]
    exact Proc.final_orFail (fun _ _ => rfl) (fun _ _ => rfl) d2
  rw [hfinal, VersionSet.rotateFull]
  split
  · let added := d2.added ((vs.logged e v buf).newManifest [] 0)
    have hrotate : ((vs.logged e v buf).rotate d2).final = added := by
      rw [takes_rotate_of_tooLong hnew hlong]
    have hnodup : added.manifestNums.Nodup :=
      (hnumbered.added (m := (vs.logged e v buf).newManifest [] 0) hnew h.good.next).nodup
    rw [hrotate]
    exact ⟨_, List.mem_append_left _ hm, hcurrent, hnodup, himage.sync⟩
  · exact ⟨_, hm, hcurrent, hnumbered.nodup, himage.sync⟩

end TooLong

/-- A table of level 0 with a long bound. -/
def longTable (key : Bytes) : FileMeta where
  level := 0
  fileNum := 2
  size := 0
  smallest := List.replicate 8 0
  largest := key

def longEdit (key : Bytes) : VersionEdit where
  addFiles := [longTable key]

def preparedRun : List Action :=
  [.call (.openSet {}), .call .allocFileNum, .call (.writeTable 2)] ++
    List.replicate 124 (.call .allocFileNum)

def longRun (key : Bytes) : List Action :=
  preparedRun ++ [.call (.apply (longEdit key))]

def Process.Prepared (p : Process) (vs : VersionSet) : Prop :=
  p.calls = 127 ∧ 2 ∈ p.disk.tables ∧ vs.nextFileNum = 127 ∧ vs.logNumber = 0 ∧
    vs.lastSeq = 0 ∧ vs.cur.all = []

instance (p : Process) (vs : VersionSet) : Decidable (p.Prepared vs) :=
  inferInstanceAs (Decidable (_ ∧ _))

theorem prepared_preparedRun : exists vs, (preparedRun.foldl Process.exec {}).set = some vs ∧
    (preparedRun.foldl Process.exec {}).Prepared vs := by
  decide +kernel

theorem length_encode_longTable {key : Bytes} (h : key.length = 4294967271) :
    (Field.addFile (longTable key)).encode.length = 4294967289 := by
  have hencode : (Field.addFile (longTable key)).encode =
      [4, 0, 2, 0, 8, 0, 0, 0, 0, 0, 0, 0, 0] ++ (putUvarint key.length ++ key) := rfl
  have hlength : (putUvarint 4294967271).length = 5 := rfl
  rw [hencode, List.length_append, List.length_append, h, hlength]
  rfl

def Version.only (f : FileMeta) : Version where
  files := fun l => if l.val = 0 then [f] else []

theorem Version.mem_only {f g : FileMeta} {l : Level} (h : g ∈ (Version.only f).files l) :
    g = f ∧ l.val = 0 := by
  rw [Version.only] at h
  dsimp only at h
  split at h
  · next hl => exact ⟨List.mem_singleton.mp h, hl⟩
  · cases h

theorem Version.wellFormed_only {f : FileMeta} (hlevel : f.level = 0)
    (hbounds : checkBounds f = .ok ()) : (Version.only f).WellFormed where
  level := fun l g hg => by
    rcases Version.mem_only hg with ⟨rfl, hl⟩
    rw [hlevel, hl]
  nodup := fun l => by
    rw [Version.only]
    dsimp only
    split
    · exact List.nodup_singleton _
    · exact List.nodup_nil
  apart := fun l l' g g' hg hg' _ =>
    Fin.ext ((Version.mem_only hg).right.trans (Version.mem_only hg').right.symm)
  bounds := fun l g hg => by
    rw [(Version.mem_only hg).left]
    exact hbounds
  sorted := fun l => by
    rw [Version.only]
    dsimp only
    split
    · exact List.pairwise_singleton _ _
    · exact List.Pairwise.nil
  disjoint := fun l => by
    rw [checkLevel]
    split
    · rfl
    · next hl =>
        rw [Version.only]
        dsimp only
        rw [if_neg hl]
        rfl

theorem checkBounds_longTable {key : Bytes} (h : 8 < key.length) :
    checkBounds (longTable key) = .ok () := by
  have hshort : ¬ ((longTable key).smallest.length < trailerLen ∨
      (longTable key).largest.length < trailerLen) := by
    rintro (hlt | hlt)
    · exact Nat.lt_irrefl 8 hlt
    · exact absurd hlt (Nat.not_lt.mpr (Nat.le_of_lt h))
  have hle : KeyLE (longTable key).smallest (longTable key).largest := by
    have hkey : userKey key ≠ [] := by
      rw [userKey, ← List.length_pos_iff, List.length_take]
      exact lt_min (Nat.sub_pos_of_lt h) (Nat.lt_trans (by decide) h)
    rw [KeyLE, compareKeys]
    show ((compare [] (userKey key)).then _).isLE = true
    cases hk : userKey key with
    | nil => exact absurd hk hkey
    | cons b bs => rfl
  rw [checkBounds, if_neg hshort, if_pos hle]

theorem Version.eq_empty_of_all {v : Version} (h : v.all = []) : v = {} := by
  have hfiles : v.files = fun _ => [] := by
    funext l
    apply List.eq_nil_iff_forall_not_mem.mpr
    intro f hf
    have hmem := Version.mem_all.mpr ⟨l, hf⟩
    rw [h] at hmem
    cases hmem
  cases v
  exact congrArg Version.mk hfiles

section LongRun

variable {key : Bytes} {vs : VersionSet}

theorem inRange_longEdit (hkey : key.length = 4294967271) : (longEdit key).InRange where
  logNumber := fun _ h => by cases h
  nextFileNum := fun _ h => by cases h
  lastSeq := fun _ h => by cases h
  deleteFiles := fun _ h => by cases h
  addFiles := fun f hf => by
    have hlargest : 8 ≤ key.length ∧ key.length < rangeLE 8 := by
      rw [hkey]
      decide
    have hsmallest : 8 ≤ 8 ∧ 8 < rangeLE 8 := by decide
    have hnum : 2 < rangeLE 8 := by decide
    rw [List.mem_singleton.mp hf]
    exact ⟨Nat.zero_lt_succ _, hnum, Nat.zero_lt_of_lt hnum, hsmallest, hlargest⟩

theorem check_longEdit (hall : vs.cur.all = []) (hkey : key.length = 4294967271) :
    vs.check (longEdit key) = .ok (Version.only (longTable key)) := by
  have hbounds : checkBounds (longTable key) = .ok () :=
    checkBounds_longTable (by rw [hkey]; decide)
  have happly : applyEdit vs.cur (longEdit key) = .ok (Version.only (longTable key)) := by
    rw [Version.eq_empty_of_all hall]
    exact (Version.wellFormed_only rfl hbounds).applyEdit_snapshot (longEdit key) rfl rfl
  have hlog : ¬ (longEdit key).logNumber.getD vs.logNumber < vs.logNumber := Nat.lt_irrefl _
  have hseq : ¬ (longEdit key).lastSeq.getD vs.lastSeq < vs.lastSeq := Nat.lt_irrefl _
  rw [VersionSet.check, if_neg hlog, if_neg hseq]
  exact mapError_eq_ok.mpr happly

theorem length_encode_stamp_longEdit (hlog : vs.logNumber = 0) (hseq : vs.lastSeq = 0)
    (hnext : vs.nextFileNum = 127) (hkey : key.length = 4294967271) :
    (vs.stamp (longEdit key)).encode.length = Wal.maxPayload := by
  have hencode : (vs.stamp (longEdit key)).encode =
      (putUvarint tagLogNumber ++ putUvarint vs.logNumber) ++
        ((putUvarint tagNextFileNum ++ putUvarint vs.nextFileNum) ++
          ((putUvarint tagLastSeq ++ putUvarint vs.lastSeq) ++
            ((Field.addFile (longTable key)).encode ++ []))) := rfl
  rw [hencode, hlog, hnext, hseq]
  simp only [List.length_append, length_encode_longTable hkey]
  rfl

/-- The edit keeps every promise and its record fits, but the snapshot of the
version that it leads to is one byte too long. -/
theorem not_recovers_longRun (hkey : key.length = 4294967271) :
    Guarded Process.exec (fun p a => p.Promised a.made ∧ p.calls + 3 < rangeLE 8) {}
        (longRun key) ∧
      ¬ exists j, ((longRun key).foldl Process.exec {}).Recovers j := by
  have hguarded : Guarded Process.exec Process.Allowed {} preparedRun := by decide +kernel
  rcases matches_of_guarded hguarded with ⟨j, _, hmatch, hn⟩
  rcases prepared_preparedRun with
    ⟨vs, hset, hcalls, htable, hnext, hlog, hseq, hall⟩
  generalize hp : preparedRun.foldl Process.exec {} = p at hmatch hn hset hcalls htable
  have he := inRange_longEdit hkey
  have hcheck := check_longEdit hall hkey
  have hmem : longTable key ∈ (Version.only (longTable key)).all := List.mem_cons_self
  have hbuf : Wal.appendRecord [] (vs.stamp (longEdit key)).encode =
      .ok (Wal.frame (vs.stamp (longEdit key)).encode) := by
    apply if_neg
    rw [length_encode_stamp_longEdit hlog hseq hnext hkey]
    exact Nat.lt_irrefl _
  generalize Wal.frame (vs.stamp (longEdit key)).encode = buf at hbuf
  let next := vs.logged (longEdit key) (Version.only (longTable key)) buf
  have hlong : Wal.maxPayload < (Field.addFile (longTable key)).encode.length + 7 := by
    rw [length_encode_longTable hkey]
    decide
  have hsnapshot : Wal.maxPayload < next.snapshotEdit.encode.length := by
    have hcounter : 128 ≤ next.nextFileNum + 1 := Nat.succ_le_succ (Nat.le_of_eq hnext.symm)
    exact Nat.lt_of_lt_of_le hlong (Nat.le_trans
      (Nat.add_le_add_right (length_encode_of_mem hmem) 7)
      (le_length_encode_snapshotEdit hcounter))
  rcases apply_of_tooLong (hmatch.live vs hset) he hcheck hbuf hn hsnapshot with
    ⟨m, hm, hcurrent, hnodup, himage⟩
  constructor
  · apply (hguarded.mono fun _ _ h => ⟨h.left, h.right.calls⟩).append
    rw [hp]
    refine ⟨⟨⟨vs, hset, he, ⟨_, hcheck⟩, ?_⟩, ?_⟩, trivial⟩
    · intro f hf
      rw [List.mem_singleton.mp hf]
      exact htable
    · rw [hcalls]
      decide
  · rintro ⟨j', hrec⟩
    rcases hrec.reopen {} with ⟨vs', _, _, hopen, _⟩
    have hdisk : ((longRun key).foldl Process.exec {}).disk =
        (vs.apply (longEdit key) p.disk).final := by
      rw [longRun, List.foldl_append, hp]
      show (program p.set (.apply (longEdit key)) p.disk).final = _
      rw [hset]
      rfl
    rw [hdisk, openSet_of_tooLong hnodup hm hcurrent himage hmem (Nat.le_of_eq hnext.symm)
      hlong] at hopen
    cases hopen

end LongRun

theorem recovers_fails_longRun :
    Guarded Process.exec (fun p a => p.Promised a.made ∧ p.calls + 3 < rangeLE 8) {}
        (longRun (List.replicate 4294967271 0)) ∧
      ¬ exists j, Along Ledger.Step {} (longRun (List.replicate 4294967271 0)) j ∧
        ((longRun (List.replicate 4294967271 0)).foldl Process.exec {}).Recovers j := by
  rcases @not_recovers_longRun (List.replicate 4294967271 0) List.length_replicate with
    ⟨hguarded, hnot⟩
  refine ⟨hguarded, ?_⟩
  rintro ⟨j, _, hrec⟩
  exact hnot ⟨j, hrec⟩

end Manifest
end Basalt
