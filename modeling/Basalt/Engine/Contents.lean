import Basalt.Engine.History
import Basalt.Engine.Tables

/-!
# What the engine holds

The batches that were committed fall into three parts: those that are flushed to
tables, those of the sealed memtable and those of the memtable.  The log holds at
least the last two parts.
-/

namespace Basalt
namespace Engine

open Lib Base Std Manifest Wal Compaction

abbrev Shown (ops : List Op) (l : List Pair) : Prop :=
  Shows Pair.userKey Pair.time Pair.IsTombstone (opPairs 1 ops) l

theorem Preserves.shows {v v' : Version} {t t' : Sources} (h : Preserves v t v' t') :
    Shows Pair.userKey Pair.time Pair.IsTombstone (entries v t) (entries v' t') where
  latest := h.newest
  older := h.older

namespace Core

/-- The three parts of the history. -/
structure Cut (c : Core) (fb sb mb : List Batch) : Prop where
  committed : c.committed = fb ++ (sb ++ mb)
  seq : c.seq = (opsOf c.committed).length
  bounded : c.seq ≤ maxSeq
  mem : c.mem.HoldsOps (1 + (opsOf fb ++ opsOf sb).length) (opsOf mb)
  imm : forall m, c.imm = some m -> m.HoldsOps (1 + (opsOf fb).length) (opsOf sb) ∧
    opsOf sb ≠ [] ∧ c.immSeq = (opsOf fb ++ opsOf sb).length
  vacant : c.imm = none -> sb = []
  subset : forall p, p ∈ entries c.version c.sources -> p ∈ opPairs 1 (opsOf fb)
  shows : Shown (opsOf fb) (entries c.version c.sources)
  floor : (opsOf fb).length ≤ c.diskSeq
  disk : c.diskSeq ≤ c.lastSeq
  ceiling : c.lastSeq ≤ c.seq
  sealed : c.imm.isSome -> c.lastSeq ≤ c.immSeq
  stamped : c.flushed ≠ [] -> c.lastSeq = (opsOf fb).length

variable {sizes : Sizes} {c c' : Core} {fb sb mb : List Batch}

namespace Cut

theorem length_eq (h : c.Cut fb sb mb) :
    c.seq = (opsOf fb).length + (opsOf sb).length + (opsOf mb).length := by
  rw [h.seq, h.committed, opsOf_append, opsOf_append, List.length_append, List.length_append]
  lia

theorem sources (h : c.Cut fb sb mb) {t : Sources}
    (hlive : forall n, n ∈ c.version.live -> t n = c.sources n) :
    Cut { c with sources := t } fb sb mb :=
  { h with
    subset := fun p hp => h.subset p ((mem_entries_congr hlive).mp hp)
    shows := h.shows.congr (fun _ => Iff.rfl) fun _ => mem_entries_congr hlive }

theorem commit (h : c.Cut fb sb mb) {b : Batch} {height : Nat -> Fin maxHeight} {mem : MemTable}
    (hbase : b.baseSeq = c.seq + 1) (hmem : c.mem.addAll b.baseSeq height b.ops = .ok mem) :
    Cut { c with
      mem := mem
      seq := c.seq + b.ops.length
      committed := c.committed ++ [b] } fb sb (mb ++ [b]) := by
  have hops : opsOf (mb ++ [b]) = opsOf mb ++ b.ops := by
    rw [opsOf_append]
    simp [opsOf]
  have hlen := h.length_eq
  have hseq : b.baseSeq = 1 + (opsOf fb ++ opsOf sb).length + (opsOf mb).length := by
    rw [hbase, hlen, List.length_append]
    lia
  rw [hseq] at hmem
  have hholds := h.mem.addAll hmem
  have hbounded : c.seq + b.ops.length ≤ maxSeq := by
    rcases Decidable.em (opsOf mb ++ b.ops = []) with hnil | hne
    · rw [(List.append_eq_nil_iff.mp hnil).right]
      exact h.bounded
    · have hmax := hholds.bounded hne
      rw [List.length_append, List.length_append] at hmax
      lia
  exact { h with
    committed := by
      show c.committed ++ [b] = _
      rw [h.committed, List.append_assoc, List.append_assoc]
    seq := by
      show c.seq + b.ops.length = (opsOf (c.committed ++ [b])).length
      rw [opsOf_append, List.length_append, h.seq]
      simp [opsOf]
    bounded := hbounded
    mem := hops.symm ▸ hholds
    ceiling := Nat.le_trans h.ceiling (Nat.le_add_right _ _) }

theorem sealed' (h : c.Cut fb sb mb) (hnone : c.imm = none) (hsize : 0 < c.mem.size) :
    Cut (c.sealAndFlush true).1 fb mb [] := by
  have hsb := h.vacant hnone
  subst hsb
  have hlen := h.length_eq
  have hnil : opsOf [] = [] := rfl
  rw [hnil, List.length_nil, Nat.add_zero] at hlen
  have hmem := h.mem
  rw [hnil, List.append_nil] at hmem
  rw [sealAndFlush_true]
  exact { h with
    committed := by
      show c.committed = _
      rw [h.committed, List.nil_append, List.append_nil]
    mem := MemTable.HoldsOps.new _ _
    imm := by
      intro m hm
      cases hm
      refine ⟨hmem, ?_, ?_⟩
      · intro hempty
        have hzero := hmem.empty.mpr hempty
        lia
      · show c.seq = _
        rw [hlen, List.length_append]
    vacant := fun hbad => by cases hbad
    sealed := fun _ => h.ceiling }

theorem flush (h : c.Cut fb sb mb) {m : MemTable} (himm : c.imm = some m) {f : FileMeta}
    {v : Version} (hreceived : Received c.version f v) (hpairs : c.sources f.fileNum = m.pairs)
    (cap : Captured) :
    Cut { c with
      version := v
      lastSeq := c.immSeq
      diskSeq := c.immSeq
      imm := none
      flushed := c.flushed ++ [cap] } (fb ++ sb) [] mb := by
  rcases h.imm m himm with ⟨hholds, hne, hseq⟩
  have hlen := h.length_eq
  have hbounded := h.bounded
  have hops : opsOf (fb ++ sb) = opsOf fb ++ opsOf sb := opsOf_append fb sb
  have hentries : forall p, p ∈ entries v c.sources <->
      p ∈ entries c.version c.sources ++ opPairs (1 + (opsOf fb).length) (opsOf sb) := by
    intro p
    rw [hreceived.mem_entries, hpairs, hholds.mem, List.mem_append]
  have hlater : Later Pair.userKey Pair.time (opPairs (1 + (opsOf fb).length) (opsOf sb))
      (opPairs 1 (opsOf fb)) := by
    apply later_opPairs
    rw [List.length_append]
    lia
  exact {
    committed := by
      show c.committed = _
      rw [h.committed, List.nil_append, List.append_assoc]
    seq := h.seq
    bounded := h.bounded
    mem := by
      have hmem := h.mem
      show c.mem.HoldsOps (1 + (opsOf (fb ++ sb) ++ []).length) _
      rw [List.append_nil, hops]
      exact hmem
    imm := fun m hm => by cases hm
    vacant := fun _ => rfl
    subset := by
      intro p hp
      rw [hops, opPairs_append, List.mem_append]
      exact (List.mem_append.mp ((hentries p).mp hp)).imp (h.subset p) id
    shows := by
      have hshows := h.shows.append hlater fun p hp q hq => hlater p hp q (h.subset q hq)
      show Shows _ _ _ (opPairs 1 (opsOf (fb ++ sb))) _
      rw [hops, opPairs_append]
      exact hshows.congr (fun _ => Iff.rfl) hentries
    floor := by
      show (opsOf (fb ++ sb)).length ≤ c.immSeq
      rw [hops, hseq]
    disk := Nat.le_refl _
    ceiling := by
      show c.immSeq ≤ c.seq
      rw [hseq, List.length_append]
      lia
    sealed := fun hbad => by cases hbad
    stamped := by
      intro _
      show c.immSeq = _
      rw [hops, hseq] }

theorem compactApply (h : c.Cut fb sb mb) {v : Version} (hpres : Preserves c.version c.sources v c.sources)
    (hsubset : forall p, p ∈ entries v c.sources -> p ∈ entries c.version c.sources) :
    Cut { c with version := v, diskSeq := c.lastSeq } fb sb mb :=
  { h with
    subset := fun p hp => h.subset p (hsubset p hp)
    shows := h.shows.trans hpres.shows
    floor := Nat.le_trans h.floor h.disk
    disk := Nat.le_refl _ }

theorem holds_output (h : c.Cut fb sb mb) {cap : Captured} (himm : c.imm = some cap.imm)
    (hwritten : c.sources cap.num = cap.imm.pairs) {l : Nat} {fileSize : List Pair -> Nat} :
    Holds c.sources (cap.output.fileMeta l fileSize) := by
  rcases h.imm cap.imm himm with ⟨hholds, hne, _⟩
  have hpairs : forall p, p ∈ cap.output.pairs <-> p ∈ opPairs (1 + (opsOf fb).length) (opsOf sb) :=
    hholds.mem
  apply holds_fileMeta
  · exact hwritten
  · exact hholds.ascending
  · exact fun p hp => decode_of_mem_opPairs (hholds.bounded hne) ((hpairs p).mp hp)
  · intro hnil
    cases hops : opsOf sb with
    | nil => exact hne hops
    | cons op ops =>
        have hmem : opPair (1 + (opsOf fb).length) op ∈ cap.output.pairs := by
          rw [hpairs, hops]
          exact List.mem_cons_self
        rw [hnil] at hmem
        cases hmem

theorem newer (h : c.Cut fb sb mb) {cap : Captured} (himm : c.imm = some cap.imm)
    (hwritten : c.sources cap.num = cap.imm.pairs) :
    forall p, p ∈ c.sources cap.num -> forall q, q ∈ entries c.version c.sources ->
      q.seq < p.seq := by
  rcases h.imm cap.imm himm with ⟨hholds, hne, _⟩
  have hmax := hholds.bounded hne
  intro p hp q hq
  rw [hwritten, hholds.mem] at hp
  have hp := seq_of_mem_opPairs hmax hp
  have hq := seq_of_mem_opPairs (by lia) (h.subset q hq)
  lia

end Cut

end Core

end Engine
end Basalt
