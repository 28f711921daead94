import Basalt.Engine.Sealing

/-!
# What the engine holds

In every orderly run the memtable, the sealed memtable and the tables bind together
what the committed batches leave in a plain map.  While a log is kept, the tables and
the segments that the next `Open` replays do so as well: no batch that was
acknowledged depends on a memtable alone.
-/

namespace Basalt
namespace Engine

open Lib Base Std Manifest Wal Compaction

namespace Core

variable {sizes : Sizes} {c : Core} {fb sb mb : List Batch}

def stored (c : Core) : List Pair :=
  entries c.version c.sources ++ ((c.imm.map MemTable.pairs).getD [] ++ c.mem.pairs)

namespace Cut

theorem tables_bind (h : c.Cut fb sb mb) (k v : Bytes) :
    Binds (entries c.version c.sources) k v <-> mapOf fb k = some v := by
  have hmax : 1 + (opsOf fb).length ≤ maxSeq + 1 := by
    have hlen := h.length_eq
    have hbounded := h.bounded
    lia
  rw [mapOf, ← binds_opPairs hmax]
  exact h.shows.bound_iff.symm

theorem mem_stored (h : c.Cut fb sb mb) (p : Pair) :
    p ∈ c.stored <-> p ∈ entries c.version c.sources ++
      opPairs (1 + (opsOf fb).length) (opsOf sb ++ opsOf mb) := by
  have himm : p ∈ (c.imm.map MemTable.pairs).getD [] <->
      p ∈ opPairs (1 + (opsOf fb).length) (opsOf sb) := by
    cases himm : c.imm with
    | none =>
        rw [h.vacant himm]
        rfl
    | some m => exact (h.imm m himm).left.mem p
  have hmem := h.mem.mem p
  rw [List.length_append, ← Nat.add_assoc] at hmem
  rw [stored, opPairs_append, List.mem_append, List.mem_append, List.mem_append, List.mem_append,
    himm, hmem]

theorem stored_binds (h : c.Cut fb sb mb) (k v : Bytes) :
    Binds c.stored k v <-> mapOf c.committed k = some v := by
  have hmax : 1 + (opsOf c.committed).length ≤ maxSeq + 1 := by
    have hseq := h.seq
    have hbounded := h.bounded
    lia
  have hops : opsOf c.committed = opsOf fb ++ (opsOf sb ++ opsOf mb) := by
    rw [h.committed, opsOf_append, opsOf_append]
  have hlater : Later Pair.userKey Pair.time
      (opPairs (1 + (opsOf fb).length) (opsOf sb ++ opsOf mb)) (opPairs 1 (opsOf fb)) :=
    later_opPairs (by rw [← hops]; exact hmax)
  have hshown : Shown (opsOf c.committed) (entries c.version c.sources ++
      opPairs (1 + (opsOf fb).length) (opsOf sb ++ opsOf mb)) := by
    rw [Shown, hops, opPairs_append]
    exact h.shows.append hlater fun p hp q hq => hlater p hp q (h.subset q hq)
  rw [mapOf, ← binds_opPairs hmax, Binds, Binds, bound_congr h.mem_stored]
  exact hshown.bound_iff.symm

end Cut

/-- The calls come in order, and the engine is opened after a clean `Close` only. -/
def Regular (c : Core) (a : CoreAction) : Prop :=
  c.Orderly a ∧ c.OpensClean a

instance (c : Core) : DecidablePred c.Regular := fun _ => inferInstanceAs (Decidable (_ ∧ _))

theorem Sound.of_regular {dsts : Nat -> Option Dst}
    (h : Reach (exec sizes) Regular { dsts := dsts } c) : c.Idle ∧ c.Sound := by
  have hidle : Idle { dsts := dsts } := { Idle.start with }
  rcases Sound.reach_with (I := fun _ => True) (fun _ _ _ _ _ _ => trivial)
    (fun _ _ _ => trivial) (fun _ _ _ _ _ _ _ _ _ _ _ => trivial) (fun _ _ ha => ha.left)
    (fun _ _ ha => ha.right) h hidle (Sound.start dsts) trivial with ⟨hidle', hsound, _⟩
  exact ⟨hidle', hsound⟩

theorem exists_flushed :
    exists c : Core, Reach (exec stallSizes) Regular { dsts := fun _ => none } c ∧
      c.flushed.length = 1 ∧ c.bgErr = false ∧ c.wal.isSome ∧ 0 < c.mem.size := by
  have hrun : okWith (runWhile (exec stallSizes) Regular
      (stallRun { memTableSize := 1, l0CompactThreshold := 1, l0StopThreshold := 1 }) {})
      (fun c => decide (c.flushed.length = 1 ∧ c.bgErr = false ∧ c.wal.isSome ∧
        0 < c.mem.size)) = true := by
    decide +kernel
  rcases exists_of_okWith hrun with ⟨c, hc, hstate⟩
  exact ⟨c, Reach.of_runWhile hc, of_decide_eq_true hstate⟩

/-- The latest versions over all memtables and tables are the committed map. -/
theorem stored_refines_map {dsts : Nat -> Option Dst}
    (h : Reach (exec sizes) Regular { dsts := dsts } c) (k v : Bytes) :
    Binds c.stored k v <-> mapOf c.committed k = some v := by
  rcases (Sound.of_regular h).right.parts with ⟨_, _, _, hcut, _⟩
  exact hcut.stored_binds k v

theorem stored_refines_map_flushed :
    exists c : Core, c.flushed.length = 1 ∧ 0 < c.mem.size ∧
      (Binds c.stored [98] [] <-> mapOf c.committed [98] = some []) := by
  rcases exists_flushed with ⟨c, hreach, hflushed, _, _, hsize⟩
  exact ⟨c, hflushed, hsize, stored_refines_map hreach [98] []⟩

/-- The tables with the replayed segments are the committed map: in every state without
a background error of an engine that keeps a log, and after a clean `Close`, where
nothing is left to replay. -/
theorem disk_refines_map {dsts : Nat -> Option Dst}
    (h : Reach (exec sizes) Regular { dsts := dsts } c)
    (hhealthy : c.bgErr = false) (hkept : c.wal.isSome ∨ c.closed = true) :
    exists m, (forall k v, Binds (entries c.version c.sources) k v <-> m k = some v) ∧
      (opsOf (c.unflushed.flatMap Prod.snd)).foldl applyOp m = mapOf c.committed ∧
      (c.closed = true -> opsOf (c.unflushed.flatMap Prod.snd) = []) := by
  rcases Sound.of_regular h with ⟨hidle, hsound⟩
  rcases hkept with hwal | hclosed
  · rcases hsound.parts with ⟨fb, sb, mb, hcut, hlogs⟩
    have hlog : opsOf (c.unflushed.flatMap Prod.snd) = opsOf sb ++ opsOf mb :=
      (hlogs.unflushed hwal).eq hhealthy
    refine ⟨mapOf fb, hcut.tables_bind, ?_, ?_⟩
    · rw [hlog, hcut.committed, mapOf, mapOf, opsOf_append, opsOf_append, ← List.foldl_append]
    · intro hclosed
      rw [hlogs.off hclosed] at hwal
      cases hwal
  · rcases hsound.drained hidle hclosed hhealthy with ⟨fb, mb, hdrained⟩
    have hempty := hdrained.empty
    refine ⟨mapOf fb, hdrained.cut.tables_bind, ?_, fun _ => hdrained.log⟩
    rw [hdrained.log, hdrained.cut.committed, mapOf, mapOf, opsOf_append, List.nil_append, hempty,
      List.append_nil]
    rfl

theorem disk_refines_map_flushed :
    exists c : Core, c.flushed.length = 1 ∧ 0 < c.mem.size ∧
      exists m, (forall k v, Binds (entries c.version c.sources) k v <-> m k = some v) ∧
        (opsOf (c.unflushed.flatMap Prod.snd)).foldl applyOp m = mapOf c.committed := by
  rcases exists_flushed with ⟨c, hreach, hflushed, hhealthy, hwal, hsize⟩
  rcases disk_refines_map hreach hhealthy (Or.inl hwal) with ⟨m, htables, hlog, _⟩
  exact ⟨c, hflushed, hsize, m, htables, hlog⟩

end Core

end Engine
end Basalt
