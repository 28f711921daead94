import Mathlib.Data.List.GetD
import Basalt.Engine.Flow
import Basalt.Engine.FlushEdit

/-!
# The tables while the background works

The levels stay in order, and the work in the background keeps to numbers of its
own: what a flush or a compaction has written is not live before its edit, and
nobody else writes to it.
-/

namespace Basalt
namespace Engine

open Lib Base Std Manifest Wal Compaction

theorem eq_of_countP_le_one {α : Type} {p : α -> Bool} {l : List α} (h : l.countP p ≤ 1)
    {a b : α} (ha : a ∈ l) (hb : b ∈ l) (hpa : p a = true) (hpb : p b = true) : a = b := by
  rw [List.countP_eq_length_filter] at h
  have ha' := List.mem_filter.mpr ⟨ha, hpa⟩
  have hb' := List.mem_filter.mpr ⟨hb, hpb⟩
  cases hfilter : l.filter p with
  | nil =>
      rw [hfilter] at ha'
      cases ha'
  | cons x rest =>
      rw [hfilter] at h ha' hb'
      cases rest with
      | nil => rw [List.mem_singleton.mp ha', List.mem_singleton.mp hb']
      | cons y rest =>
          rw [List.length_cons, List.length_cons] at h
          lia

structure Fresh (next : Nat) (v : Version) (n : Nat) : Prop where
  lt : n < next
  free : n ∉ v.live

structure Flushing (next : Nat) (v : Version) (t : Sources) (cap : Captured) (stage : FlushStage) :
    Prop where
  num : Fresh next v cap.num
  young : forall l f, l.val = 0 -> f ∈ v.files l -> f.fileNum < cap.num
  written : stage = .written -> t cap.num = cap.imm.pairs

/-- A compaction at work, with the numbers of its outputs. -/
structure Working (next : Nat) (v : Version) (t : Sources) (fs : List Flusher) (k : Compaction)
    (nums : List Nat) : Prop where
  chosen : exists v₀ level output, Chosen v₀ k level output ∧ Layered v₀ t ∧ Flushed v₀ v
  nodup : nums.Nodup
  fresh : forall n, n ∈ nums -> Fresh next v n
  apart : forall n, n ∈ nums -> forall cap stage, .running cap stage ∈ fs -> stage ≠ .pruning ->
    cap.num ≠ n

structure Merged (t : Sources) (k : Compaction) (outs : List Output) : Prop where
  result : exists alloc merged, Result k t alloc merged outs
  written : forall o, o ∈ outs -> t o.fileNum = o.pairs

section

variable {next next' : Nat} {v v' : Version} {t t' : Sources} {fs fs' : List Flusher}
  {k : Compaction} {nums : List Nat} {outs : List Output} {cap : Captured} {stage : FlushStage}
  {n : Nat}

theorem Fresh.mono (h : Fresh next v n) (hle : next ≤ next') : Fresh next' v n :=
  ⟨Nat.lt_of_lt_of_le h.lt hle, h.free⟩

theorem Flushing.mono (h : Flushing next v t cap stage) (hle : next ≤ next') :
    Flushing next' v t cap stage :=
  { h with num := h.num.mono hle }

theorem Flushed.live {v₀ : Version} (h : Flushed v₀ v) (hn : n ∈ v₀.live) : n ∈ v.live := by
  rcases Version.mem_live.mp hn with ⟨l, f, hf, rfl⟩
  exact Version.mem_live.mpr ⟨l, f, h.kept l f hf, rfl⟩

namespace Working

theorem mono (h : Working next v t fs k nums) (hle : next ≤ next')
    (hfs : forall cap stage, .running cap stage ∈ fs' -> stage ≠ .pruning ->
      (exists stage', .running cap stage' ∈ fs ∧ stage' ≠ .pruning) ∨ next ≤ cap.num) :
    Working next' v t fs' k nums where
  chosen := h.chosen
  nodup := h.nodup
  fresh := fun n hn => (h.fresh n hn).mono hle
  apart := by
    intro n hn cap stage hmem hstage
    rcases hfs cap stage hmem hstage with ⟨stage', hmem', hstage'⟩ | hnew
    · exact h.apart n hn cap stage' hmem' hstage'
    · have hlt := (h.fresh n hn).lt
      lia

theorem sources (h : Working next v t fs k nums) (hsame : forall n, n ∈ v.live -> t' n = t n) :
    Working next v t' fs k nums := by
  rcases h.chosen with ⟨v₀, level, output, hc, hlayered, hflushed⟩
  exact { h with
    chosen := ⟨v₀, level, output, hc, hlayered.congr fun n hn => hsame n (hflushed.live hn),
      hflushed⟩ }

theorem create (h : Working next v t fs k nums) (hnext : next ∉ v.live)
    (hfs : forall cap stage, .running cap stage ∈ fs -> stage ≠ .pruning -> cap.num < next) :
    Working (next + 1) v t fs k (nums ++ [next]) where
  chosen := h.chosen
  nodup := by
    apply h.nodup.append (List.nodup_singleton _)
    intro n hn hn'
    rw [List.mem_singleton.mp hn'] at hn
    exact Nat.lt_irrefl _ (h.fresh next hn).lt
  fresh := by
    intro n hn
    rcases List.mem_append.mp hn with hn | hn
    · exact (h.fresh n hn).mono (Nat.le_succ next)
    · rw [List.mem_singleton.mp hn]
      exact ⟨Nat.lt_succ_self next, hnext⟩
  apart := by
    intro n hn cap stage hmem hstage
    rcases List.mem_append.mp hn with hn | hn
    · exact h.apart n hn cap stage hmem hstage
    · rw [List.mem_singleton.mp hn]
      exact Nat.ne_of_lt (hfs cap stage hmem hstage)

theorem receive {f : FileMeta} (h : Working next v t fs k nums) (hle : next ≤ next')
    (hreceived : Received v f v')
    (hyoung : forall l g, l.val = 0 -> g ∈ v.files l -> g.fileNum < f.fileNum)
    (hf : f.fileNum ∉ nums)
    (hfs : forall cap stage, .running cap stage ∈ fs' -> stage = .pruning) :
    Working next' v' t fs' k nums := by
  rcases h.chosen with ⟨v₀, level, output, hc, hlayered, hflushed⟩
  constructor
  · exact ⟨v₀, level, output, hc, hlayered, hreceived.flushed hflushed hyoung⟩
  · exact h.nodup
  · intro n hn
    refine ⟨Nat.lt_of_lt_of_le (h.fresh n hn).lt hle, ?_⟩
    intro hlive
    rcases hreceived.mem_live.mp hlive with hlive | rfl
    · exact (h.fresh n hn).free hlive
    · exact hf hn
  · exact fun _ _ cap stage hmem hstage => absurd (hfs cap stage hmem) hstage

end Working

theorem Merged.sources (h : Merged t k outs) (hinputs : forall f, f ∈ k.inputs ->
    t' f.fileNum = t f.fileNum) (houts : forall o, o ∈ outs -> t' o.fileNum = t o.fileNum) :
    Merged t' k outs := by
  rcases h.result with ⟨alloc, merged, hr⟩
  have hsame : (k.inputs.map FileMeta.fileNum).flatMap t' =
      (k.inputs.map FileMeta.fileNum).flatMap t := by
    apply List.flatMap_congr
    intro n hn
    rcases List.mem_map.mp hn with ⟨f, hf, rfl⟩
    exact hinputs f hf
  constructor
  · exact ⟨alloc, merged, hsame.symm ▸ hr.perm, hr.ascending, hr.pairs, hr.nonempty, hr.numbers⟩
  · intro o ho
    rw [houts o ho]
    exact h.written o ho

/-!
## The numbers of the outputs
-/

theorem injective_getD (hnodup : nums.Nodup) (hlt : forall n, n ∈ nums -> n < next) :
    Function.Injective fun i => nums.getD i (next + i) := by
  intro i j hij
  dsimp only at hij
  rcases Nat.lt_or_ge i nums.length with hi | hi
  · have hin := hlt _ (List.getElem_mem hi)
    rw [List.getD_eq_getElem _ _ hi] at hij
    rcases Nat.lt_or_ge j nums.length with hj | hj
    · rw [List.getD_eq_getElem _ _ hj] at hij
      exact (List.Nodup.getElem_inj_iff hnodup).mp hij
    · rw [List.getD_eq_default _ _ hj] at hij
      lia
  · rw [List.getD_eq_default _ _ hi] at hij
    rcases Nat.lt_or_ge j nums.length with hj | hj
    · have hjn := hlt _ (List.getElem_mem hj)
      rw [List.getD_eq_getElem _ _ hj] at hij
      lia
    · rw [List.getD_eq_default _ _ hj] at hij
      lia

theorem map_getD (nums : List Nat) (next : Nat) :
    (List.range nums.length).map (fun i => nums.getD i (next + i)) = nums := by
  apply List.ext_getElem
  · rw [List.length_map, List.length_range]
  · intro i _ hi
    rw [List.getElem_map, List.getElem_range, List.getD_eq_getElem _ _ hi]

theorem Working.getD_not_live (h : Working next v t fs k nums)
    (hnumbers : forall n, n ∈ v.live -> n < next) (i : Nat) :
    nums.getD i (next + i) ∉ v.live := by
  rcases Nat.lt_or_ge i nums.length with hi | hi
  · rw [List.getD_eq_getElem _ _ hi]
    exact (h.fresh _ (List.getElem_mem hi)).free
  · rw [List.getD_eq_default _ _ hi]
    intro hlive
    have hlt := hnumbers _ hlive
    lia

end

/-!
## The invariant
-/

namespace Core

structure Tables (c : Core) : Prop where
  layered : Layered c.version c.sources
  numbers : forall n, n ∈ c.version.live -> n < c.nextFileNum
  flushing : forall cap stage, .running cap stage ∈ c.flushers -> stage ≠ .pruning ->
    Flushing c.nextFileNum c.version c.sources cap stage
  merging : forall k nums, c.compacting = some k -> k.stage = .merging nums ->
    Working c.nextFileNum c.version c.sources c.flushers k.c nums
  merged : forall k outs, c.compacting = some k -> k.stage = .merged outs ->
    Working c.nextFileNum c.version c.sources c.flushers k.c (outs.map Output.fileNum) ∧
      Merged c.sources k.c outs

namespace Tables

variable {sizes : Sizes} {c c' : Core}

theorem sources (h : c.Tables) {t : Sources}
    (hlive : forall n, n ∈ c.version.live -> t n = c.sources n)
    (hflush : forall cap, .running cap .written ∈ c.flushers -> t cap.num = c.sources cap.num)
    (hmerged : forall k outs, c.compacting = some k -> k.stage = .merged outs ->
      forall o, o ∈ outs -> t o.fileNum = c.sources o.fileNum) :
    Tables { c with sources := t } where
  layered := h.layered.congr hlive
  numbers := h.numbers
  flushing := by
    intro cap stage hmem hstage
    have hold := h.flushing cap stage hmem hstage
    refine { hold with written := ?_ }
    rintro rfl
    show t cap.num = _
    rw [hflush cap hmem]
    exact hold.written rfl
  merging := fun k nums hk hstage => (h.merging k nums hk hstage).sources hlive
  merged := by
    intro k outs hk hstage
    rcases h.merged k outs hk hstage with ⟨hworking, hdone⟩
    refine ⟨hworking.sources hlive, hdone.sources ?_ (hmerged k outs hk hstage)⟩
    rcases hworking.chosen with ⟨v₀, level, output, hc, _, hflushed⟩
    intro f hf
    exact hlive _ (hflushed.live (List.mem_map_of_mem (hc.mem_all hf)))

theorem flushers (h : c.Tables) {fs : List Flusher}
    (hfs : forall cap stage, .running cap stage ∈ fs -> stage ≠ .pruning ->
      Flushing c.nextFileNum c.version c.sources cap stage ∧
        exists stage', .running cap stage' ∈ c.flushers ∧ stage' ≠ .pruning) :
    Tables { c with flushers := fs } where
  layered := h.layered
  numbers := h.numbers
  flushing := fun cap stage hmem hstage => (hfs cap stage hmem hstage).left
  merging := fun k nums hk hstage => (h.merging k nums hk hstage).mono (Nat.le_refl _)
    fun cap stage hmem hactive => Or.inl (hfs cap stage hmem hactive).right
  merged := fun k outs hk hstage => (h.merged k outs hk hstage).imp
    (fun hworking => hworking.mono (Nat.le_refl _)
      fun cap stage hmem hactive => Or.inl (hfs cap stage hmem hactive).right) id

theorem eraseFlusher (h : c.Tables) (j : Nat) :
    Tables { c with flushers := c.flushers.eraseIdx j } := by
  apply h.flushers
  intro cap stage hmem hstage
  have hmem := List.mem_of_mem_eraseIdx hmem
  exact ⟨h.flushing cap stage hmem hstage, stage, hmem, hstage⟩

theorem addFlusher (h : c.Tables) : Tables { c with flushers := c.flushers ++ [.starting] } := by
  apply h.flushers
  intro cap stage hmem hstage
  rcases List.mem_append.mp hmem with hmem | hmem
  · exact ⟨h.flushing cap stage hmem hstage, stage, hmem, hstage⟩
  · cases List.mem_singleton.mp hmem

theorem flushFail (h : c.Tables) {j : Nat} {cap : Captured} {stage : FlushStage}
    (hj : c.flushers[j]? = some (.running cap stage)) (hstage : stage ≠ .pruning) :
    Tables { c with flushers := c.flushers.set j (.running cap .failing) } := by
  have hcap := List.mem_of_getElem? hj
  apply h.flushers
  intro cap' stage' hmem hstage'
  rcases List.mem_or_eq_of_mem_set hmem with hmem | heq
  · exact ⟨h.flushing cap' stage' hmem hstage', stage', hmem, hstage'⟩
  · cases heq
    refine ⟨{ h.flushing cap stage hcap hstage with written := ?_ }, stage, hcap, hstage⟩
    exact fun hbad => by cases hbad

theorem flushStart (h : c.Tables) (j : Nat) {cap : Captured} (hnum : cap.num = c.nextFileNum) :
    Tables { c with
      nextFileNum := c.nextFileNum + 1
      flushers := c.flushers.set j (.running cap .writing) } := by
  have hle := Nat.le_succ c.nextFileNum
  have hfs : forall cap' stage, .running cap' stage ∈ c.flushers.set j (.running cap .writing) ->
      stage ≠ .pruning ->
      (exists stage', .running cap' stage' ∈ c.flushers ∧ stage' ≠ .pruning) ∨
        c.nextFileNum ≤ cap'.num := by
    intro cap' stage hmem hstage
    rcases List.mem_or_eq_of_mem_set hmem with hmem | heq
    · exact Or.inl ⟨stage, hmem, hstage⟩
    · cases heq
      exact Or.inr (Nat.le_of_eq hnum.symm)
  constructor
  · exact h.layered
  · exact fun n hn => Nat.lt_succ_of_lt (h.numbers n hn)
  · intro cap' stage hmem hstage
    rcases List.mem_or_eq_of_mem_set hmem with hmem | heq
    · exact (h.flushing cap' stage hmem hstage).mono hle
    · cases heq
      constructor
      · constructor
        · rw [hnum]
          exact Nat.lt_succ_self _
        · intro hlive
          have hlt := h.numbers _ hlive
          lia
      · intro l f _ hf
        rw [hnum]
        exact h.numbers _ (Version.mem_live.mpr ⟨l, f, hf, rfl⟩)
      · exact fun hwritten => by cases hwritten
  · exact fun k nums hk hstage => (h.merging k nums hk hstage).mono hle hfs
  · exact fun k outs hk hstage => (h.merged k outs hk hstage).imp
      (fun hworking => hworking.mono hle hfs) id

theorem flushWrite (h : c.Tables) (hflow : c.Flow) {j : Nat} {cap : Captured}
    (hj : c.flushers[j]? = some (.running cap .writing)) :
    Tables { c with
      sources := written c.sources [cap.output]
      flushers := c.flushers.set j (.running cap .written) } := by
  have hcap := List.mem_of_getElem? hj
  have hnum := (h.flushing cap .writing hcap nofun).num
  have hother : forall n, n ≠ cap.num -> written c.sources [cap.output] n = c.sources n := by
    intro n hne
    apply written_of_not_mem
    intro hmem
    exact hne (List.mem_singleton.mp hmem)
  have hself : written c.sources [cap.output] cap.output.fileNum = cap.output.pairs :=
    written_of_mem (List.nodup_singleton _) List.mem_cons_self
  have hsame : Tables { c with sources := written c.sources [cap.output] } := by
    apply h.sources
    · intro n hn
      apply hother
      rintro rfl
      exact hnum.free hn
    · intro cap' hmem
      have heq := eq_of_countP_le_one hflow.single hmem hcap
        (decide_eq_true (show Flusher.Active (.running cap' .written) from nofun))
        (decide_eq_true (show Flusher.Active (.running cap .writing) from nofun))
      cases heq
    · intro k outs hk hstage o ho
      apply hother
      exact ((h.merged k outs hk hstage).left.apart o.fileNum (List.mem_map_of_mem ho) cap .writing
        hcap nofun).symm
  apply hsame.flushers
  intro cap' stage hmem hstage
  rcases List.mem_or_eq_of_mem_set hmem with hmem | heq
  · exact ⟨hsame.flushing cap' stage hmem hstage, stage, hmem, hstage⟩
  · cases heq
    refine ⟨?_, .writing, hcap, nofun⟩
    exact { hsame.flushing cap .writing hcap nofun with written := fun _ => hself }

theorem flushApply (h : c.Tables) {cap : Captured} (hcap : .running cap .written ∈ c.flushers)
    {f : FileMeta} {v : Version} {next : Nat} {fs : List Flusher} (hnum : f.fileNum = cap.num)
    (hreceived : Received c.version f v) (hlayered : Layered v c.sources)
    (hnext : c.nextFileNum ≤ next)
    (hfs : forall cap stage, .running cap stage ∈ fs -> stage = .pruning) :
    Tables { c with version := v, nextFileNum := next, flushers := fs } := by
  have hflush := h.flushing cap .written hcap nofun
  have hyoung : forall l g, l.val = 0 -> g ∈ c.version.files l -> g.fileNum < f.fileNum := by
    rw [hnum]
    exact hflush.young
  have hreceive : forall {k : Compaction} {nums : List Nat},
      Working c.nextFileNum c.version c.sources c.flushers k nums ->
      Working next v c.sources fs k nums := by
    intro k nums hworking
    apply hworking.receive hnext hreceived hyoung _ hfs
    intro hmem
    rw [hnum] at hmem
    exact hworking.apart cap.num hmem cap .written hcap nofun rfl
  constructor
  · exact hlayered
  · intro n hn
    rcases hreceived.mem_live.mp hn with hn | rfl
    · exact Nat.lt_of_lt_of_le (h.numbers n hn) hnext
    · rw [hnum]
      exact Nat.lt_of_lt_of_le hflush.num.lt hnext
  · exact fun cap stage hmem hstage => absurd (hfs cap stage hmem) hstage
  · exact fun k nums hk hstage => hreceive (h.merging k nums hk hstage)
  · exact fun k outs hk hstage => (h.merged k outs hk hstage).imp hreceive id

theorem schedule (h : c.Tables) {k : Compaction} {compactPtr : Level -> Option Bytes}
    (hpick : pickCompaction c.opts c.version c.compactPtr = some (k, compactPtr)) :
    Tables { c with compactPtr := compactPtr, compacting := some { c := k } } :=
  { h with
    merging := by
      intro k' nums hk hstage
      cases hk
      cases hstage
      rcases (pickable_of_pickCompaction hpick).chosen with ⟨level, output, hc⟩
      constructor
      · exact ⟨c.version, level, output, hc, h.layered, Flushed.refl _⟩
      · exact List.nodup_nil
      · exact fun n hn => by cases hn
      · exact fun n hn => by cases hn
    merged := by
      intro k' outs hk hstage
      cases hk
      cases hstage }

theorem unwind (h : c.Tables) {k : Option Compacting}
    (hk : forall k', k = some k' -> exists failed, k'.stage = .finishing failed) :
    Tables { c with compacting := k } :=
  { h with
    merging := by
      intro k' nums hk' hstage
      rcases hk k' hk' with ⟨failed, hfinishing⟩
      rw [hfinishing] at hstage
      cases hstage
    merged := by
      intro k' outs hk' hstage
      rcases hk k' hk' with ⟨failed, hfinishing⟩
      rw [hfinishing] at hstage
      cases hstage }

theorem compactCreate (h : c.Tables) {k : Compacting} {nums : List Nat}
    (hk : c.compacting = some k) (hstage : k.stage = .merging nums) :
    Tables { c with
      nextFileNum := c.nextFileNum + 1
      compacting := some { k with stage := .merging (nums ++ [c.nextFileNum]) } } where
  layered := h.layered
  numbers := fun n hn => Nat.lt_succ_of_lt (h.numbers n hn)
  flushing := fun cap stage hmem hactive =>
    (h.flushing cap stage hmem hactive).mono (Nat.le_succ _)
  merging := by
    intro k' nums' hk' hstage'
    cases hk'
    cases hstage'
    apply (h.merging k nums hk hstage).create
    · exact fun hlive => Nat.lt_irrefl _ (h.numbers _ hlive)
    · exact fun cap stage hmem hactive => (h.flushing cap stage hmem hactive).num.lt
  merged := by
    intro k' outs hk' hstage'
    cases hk'
    cases hstage'

theorem compactMerge (h : c.Tables) {k : Compacting} {nums : List Nat} {outs : List Output}
    (hk : c.compacting = some k) (hstage : k.stage = .merging nums)
    (houts : k.c.outputs c.opts sizes.estimated (c.allocated nums) c.sources
      (fun _ _ => (none : Option Unit)) = .ok outs)
    (hnums : outs.map Output.fileNum = nums) :
    Tables { c with
      sources := written c.sources outs
      compacting := some { k with stage := .merged outs } } := by
  have hworking := h.merging k nums hk hstage
  rcases hworking.chosen with ⟨v₀, level, output, hc, hlayered, hflushed⟩
  have hother : forall n, n ∉ nums -> written c.sources outs n = c.sources n := by
    intro n hn
    apply written_of_not_mem
    rw [hnums]
    exact hn
  have hlive : forall n, n ∈ c.version.live -> written c.sources outs n = c.sources n :=
    fun n hn => hother n fun hmem => (hworking.fresh n hmem).free hn
  have hsame : Tables { c with
      sources := written c.sources outs
      compacting := none } := by
    refine (h.unwind (k := none) (fun k' hk' => by cases hk')).sources hlive ?_ ?_
    · intro cap hmem
      apply hother
      intro hin
      exact hworking.apart cap.num hin cap .written hmem nofun rfl
    · intro k' outs' hk'
      cases hk'
  rcases outputs_spec hc hlayered c.opts sizes.estimated (c.allocated nums)
    (fun _ _ => (none : Option Unit)) with ⟨merged, outs', hout, hr⟩ | ⟨_, _, _, _, _, hfault⟩
  · rw [houts] at hout
    cases hout
    have hdone : Merged (written c.sources outs) k.c outs := by
      have hinputs : (k.c.inputs.map FileMeta.fileNum).flatMap (written c.sources outs) =
          (k.c.inputs.map FileMeta.fileNum).flatMap c.sources := by
        apply List.flatMap_congr
        intro n hn
        rcases List.mem_map.mp hn with ⟨f, hf, rfl⟩
        exact hlive _ (hflushed.live (List.mem_map_of_mem (hc.mem_all hf)))
      constructor
      · exact ⟨c.allocated nums, merged, hinputs.symm ▸ hr.perm, hr.ascending, hr.pairs,
          hr.nonempty, hr.numbers⟩
      · exact fun o ho => written_of_mem (hnums ▸ hworking.nodup) ho
    exact { hsame with
      merging := by
        intro k' nums' hk' hstage'
        cases hk'
        cases hstage'
      merged := by
        intro k' outs' hk' hstage'
        cases hk'
        cases hstage'
        exact ⟨hnums ▸ hworking.sources hlive, hdone⟩ }
  · cases hfault

theorem compactApply (h : c.Tables) {k : Compacting} {outs : List Output} {v : Version}
    {next : Nat} (hk : c.compacting = some k) (hstage : k.stage = .merged outs)
    (hcheck : applyEdit c.version (k.c.edit sizes.file outs) = .ok v)
    (hnext : c.nextFileNum ≤ next) :
    Preserves c.version c.sources v c.sources ∧
      (forall p, p ∈ entries v c.sources -> p ∈ entries c.version c.sources) ∧
      Tables { c with
        version := v
        nextFileNum := next
        compacting := some { k with stage := .finishing false } } := by
  rcases h.merged k outs hk hstage with ⟨hworking, hdone⟩
  rcases hworking.chosen with ⟨v₀, level, output, hc, hlayered, hflushed⟩
  rcases hdone.result with ⟨alloc₀, merged, hr₀⟩
  -- The numbers of the outputs, continued by numbers that nobody has yet.
  let alloc := fun i => (outs.map Output.fileNum).getD i (c.nextFileNum + i)
  have hr : Result k.c c.sources alloc merged outs := by
    refine ⟨hr₀.perm, hr₀.ascending, hr₀.pairs, hr₀.nonempty, ?_⟩
    have hmap := map_getD (outs.map Output.fileNum) c.nextFileNum
    rw [List.length_map] at hmap
    exact hmap.symm
  have halloc : Function.Injective alloc :=
    injective_getD hworking.nodup fun n hn => (hworking.fresh n hn).lt
  have hnew : forall i, alloc i ∉ c.version.live := hworking.getD_not_live h.numbers
  rcases applyEdit_compaction hlayered h.layered hflushed hc halloc hnew hr sizes.file with
    ⟨v', hok, hfiles, _⟩
  rw [hcheck] at hok
  cases hok
  have hwritten : written c.sources outs = c.sources := by
    funext n
    rcases Decidable.em (n ∈ outs.map Output.fileNum) with hn | hn
    · rcases List.mem_map.mp hn with ⟨o, ho, rfl⟩
      rw [written_of_mem hworking.nodup ho, hdone.written o ho]
    · exact written_of_not_mem hn
  have hpres := preserves_edited hlayered h.layered hflushed hc halloc hnew hr hcheck hfiles
  have hsubset := fun {p : Pair} => entries_edited (p := p) hflushed hc halloc hnew hr hfiles
  rw [hwritten] at hpres hsubset
  have hlive : forall n, n ∈ v.live -> n ∈ c.version.live ∨ n ∈ outs.map Output.fileNum := by
    intro n hn
    rcases Version.mem_live.mp hn with ⟨l, f, hf, rfl⟩
    rcases (hfiles l f).mp hf with ⟨hold, _⟩ | ⟨_, o, ho, rfl⟩
    · exact Or.inl (Version.mem_live.mpr ⟨l, f, hold, rfl⟩)
    · exact Or.inr (List.mem_map_of_mem ho)
  refine ⟨hpres, fun p => hsubset, ?_⟩
  have hinstalled : Tables { c with version := v, nextFileNum := next, compacting := none } := by
    constructor
    · exact hpres.layered
    · intro n hn
      rcases hlive n hn with hn | hn
      · exact Nat.lt_of_lt_of_le (h.numbers n hn) hnext
      · exact Nat.lt_of_lt_of_le (hworking.fresh n hn).lt hnext
    · intro cap stage hmem hactive
      have hflush := h.flushing cap stage hmem hactive
      refine ⟨⟨Nat.lt_of_lt_of_le hflush.num.lt hnext, ?_⟩, ?_, hflush.written⟩
      · intro hn
        rcases hlive _ hn with hn | hn
        · exact hflush.num.free hn
        · exact hworking.apart _ hn cap stage hmem hactive rfl
      · intro l f hl hf
        rcases (hfiles l f).mp hf with ⟨hold, _⟩ | ⟨rfl, _⟩
        · exact hflush.young l f hl hold
        · -- The outputs go below level 0.
          have hpos := hc.next
          lia
    · exact fun k nums hk => by cases hk
    · exact fun k outs hk => by cases hk
  exact hinstalled.unwind fun k' hk' => by
    cases hk'
    exact ⟨false, rfl⟩

end Tables

end Core

end Engine
end Basalt
