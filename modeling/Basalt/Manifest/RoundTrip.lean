import Mathlib.Data.List.Pairwise
import Basalt.Manifest.Version

/-!
# Edits and snapshots read back

An edit is read back from its record as it was written.  A fresh manifest
starts with a snapshot of the version, and the snapshot that is read back
rebuilds the version: its tables, level by level and in order.
-/

namespace Basalt
namespace Manifest

open Lib Base Std

structure FileMeta.Sized (f : FileMeta) : Prop where
  fileNum : f.fileNum < rangeLE 8
  size : f.size < rangeLE 8
  smallest : f.smallest.length < rangeLE 8
  largest : f.largest.length < rangeLE 8

inductive Reachable : Version -> Prop where
  | empty : Reachable {}
  | edit {v v' : Version} {e : VersionEdit} (h : Reachable v)
      (hsized : forall f, f ∈ e.addFiles -> f.Sized) (hok : applyEdit v e = .ok v') :
      Reachable v'

namespace Reachable

variable {v : Version}

theorem wellFormed (h : Reachable v) : v.WellFormed := by
  induction h with
  | empty => exact Version.wellFormed_empty
  | edit _ _ hok ih => exact ih.applyEdit hok

theorem sized (h : Reachable v) {l : Level} {f : FileMeta} (hf : f ∈ v.files l) : f.Sized := by
  induction h with
  | empty => cases hf
  | edit _ hsized hok ih =>
      rcases mem_applyEdit hok hf with hf | hf
      · exact ih hf
      · exact hsized f hf

end Reachable

theorem checkBounds_eq_ok {f : FileMeta} (h : checkBounds f = .ok ()) :
    trailerLen ≤ f.smallest.length ∧ trailerLen ≤ f.largest.length ∧
      KeyLE f.smallest f.largest := by
  unfold checkBounds at h
  split at h
  · cases h
  · next hlen =>
      split at h
      · next hle =>
          refine ⟨?_, ?_, hle⟩
          · lia
          · lia
      · cases h

theorem Reachable.inRange_snapshot {v : Version} (h : Reachable v) : (snapshot v).InRange := by
  constructor
  · intro n hn
    cases hn
  · intro n hn
    cases hn
  · intro n hn
    cases hn
  · intro f hf
    rcases Version.mem_all.mp hf with ⟨l, hl⟩
    have hsized := h.sized hl
    rcases checkBounds_eq_ok (h.wellFormed.bounds l f hl) with ⟨hsmallest, hlargest, _⟩
    exact {
      level := h.wellFormed.level_lt hf
      fileNum := hsized.fileNum
      size := hsized.size
      smallest := ⟨hsmallest, hsized.smallest⟩
      largest := ⟨hlargest, hsized.largest⟩ }
  · intro d hd
    cases hd

/-!
## The order of a level

The sort of the source is not stable.  No two tables of a level that passes the
check could change places, so that the order does not depend on the sort.
-/

theorem pairwise_of_checkDisjoint {l : Level} {fs : List FileMeta}
    (hbounds : forall f, f ∈ fs -> checkBounds f = .ok ())
    (h : checkDisjoint l fs = .ok ()) :
    fs.Pairwise fun f f' => compareKeys f.smallest f'.smallest = .lt := by
  induction fs with
  | nil => exact List.Pairwise.nil
  | cons f fs ih =>
      cases fs with
      | nil => exact List.pairwise_singleton _ f
      | cons f' fs =>
          unfold checkDisjoint at h
          split at h
          · next hlt =>
              have hrest := ih (fun g hg => hbounds g (List.mem_cons_of_mem f hg)) h
              have hle := (checkBounds_eq_ok (hbounds f List.mem_cons_self)).right.right
              have hnext : compareKeys f.smallest f'.smallest = .lt :=
                TransCmp.lt_of_isLE_of_lt hle hlt
              refine List.pairwise_cons.mpr ⟨fun g hg => ?_, hrest⟩
              rcases List.mem_cons.mp hg with rfl | hg
              · exact hnext
              · exact TransCmp.lt_trans hnext ((List.pairwise_cons.mp hrest).left g hg)
          · cases h

namespace Version.WellFormed

variable {v : Version}

theorem before_antisymm (h : v.WellFormed) {l : Level} {f f' : FileMeta}
    (hf : f ∈ v.files l) (hf' : f' ∈ v.files l) (hle : Before l f f') (hge : Before l f' f) :
    f = f' := by
  unfold Before at hle hge
  split at hle
  · next hl =>
      rw [if_pos hl] at hge
      exact List.inj_on_of_nodup_map (h.nodup l) hf hf' (Nat.le_antisymm hge hle)
  · next hl =>
      rw [if_neg hl] at hge
      have hlevel := h.disjoint l
      unfold checkLevel at hlevel
      rw [if_neg hl] at hlevel
      have hsorted := pairwise_of_checkDisjoint (h.bounds l) hlevel
      have heq : compareKeys f.smallest f'.smallest = .eq := OrientedCmp.isLE_antisymm hle hge
      by_contra hne
      let apart : FileMeta -> FileMeta -> Prop := fun g g' =>
        compareKeys g.smallest g'.smallest = .lt ∨ compareKeys g'.smallest g.smallest = .lt
      have hsymm : Std.Symm apart := ⟨fun _ _ => Or.symm⟩
      have hapart : (v.files l).Pairwise apart := hsorted.imp Or.inl
      rcases hapart.forall hf hf' hne with hlt | hlt
      · rw [heq] at hlt
        cases hlt
      · rw [OrientedCmp.eq_comm.mp heq] at hlt
        cases hlt

theorem eq_of_sorted (h : v.WellFormed) {w : Version}
    (hperm : forall l, (w.files l).Perm (v.files l))
    (hsorted : forall l, (w.files l).Pairwise (Before l)) : w = v := by
  have hfiles : w.files = v.files := by
    funext l
    refine List.Perm.eq_of_pairwise (fun f f' hf hf' => ?_) (hsorted l) (h.sorted l) (hperm l)
    exact h.before_antisymm ((hperm l).subset hf) hf'
  cases w
  cases v
  cases hfiles
  rfl

end Version.WellFormed

/-- Edits are read back as they were written.  The snapshot of a version that
edits led to is read back and rebuilds it, in the only order that its levels
can be sorted to. -/
theorem edits_roundTrip :
    (forall e : VersionEdit, e.InRange -> decodeEdit e.encode = .ok e) ∧
      forall v, Reachable v ->
        (exists e, decodeEdit (snapshot v).encode = .ok e ∧ applyEdit {} e = .ok v) ∧
        forall w : Version, (forall l, (w.files l).Perm (v.files l)) ->
          (forall l, (w.files l).Pairwise (Before l)) -> w = v := by
  refine ⟨fun e he => VersionEdit.decodeEdit_encode he, fun v hv => ⟨?_, ?_⟩⟩
  · exact ⟨snapshot v, VersionEdit.decodeEdit_encode hv.inRange_snapshot,
      hv.wellFormed.applyEdit_snapshot (snapshot v) rfl rfl⟩
  · intro w hperm hsorted
    exact hv.wellFormed.eq_of_sorted hperm hsorted

def growth : VersionEdit where
  logNumber := some 3
  lastSeq := some 300
  addFiles := [
    { level := 1, fileNum := 8, size := 200, smallest := [2, 0, 1, 0, 0, 0, 0, 0, 0],
      largest := [3, 0, 1, 0, 0, 0, 0, 0, 0] },
    { level := 1, fileNum := 9, size := 100, smallest := [1, 0, 2, 0, 0, 0, 0, 0, 0],
      largest := [1, 0, 1, 0, 0, 0, 0, 0, 0] }]

theorem edits_roundTrip_growth :
    decodeEdit growth.encode = .ok growth ∧
      exists v, v.live = [9, 8] ∧
        exists e, decodeEdit (snapshot v).encode = .ok e ∧ applyEdit {} e = .ok v := by
  have hrange : growth.InRange := by decide
  have hrun : okWith (applyEdit {} growth) (fun v => decide (v.live = [9, 8])) = true := by
    decide +kernel
  rcases exists_of_okWith hrun with ⟨v, hok, hlive⟩
  have hsized : forall f, f ∈ growth.addFiles -> f.Sized := fun f hf =>
    ⟨(hrange.addFiles f hf).fileNum, (hrange.addFiles f hf).size,
      (hrange.addFiles f hf).smallest.right, (hrange.addFiles f hf).largest.right⟩
  have hreach := Reachable.edit Reachable.empty hsized hok
  exact ⟨edits_roundTrip.left growth hrange, v, of_decide_eq_true hlive,
    (edits_roundTrip.right v hreach).left⟩

end Manifest
end Basalt
