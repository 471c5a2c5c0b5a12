import Cbop.RangeTree.Basic

/-
  Range maps with other records.

  `map_add_range` moves the data records of a map around and
  never looks at them, so replacing every record commutes
  with it.

  Main declarations:
    * `MemRange.mapRecord`, `RangeMap.mapRecord`
    * `mapAddRange_mapRecord`
-/

namespace Cbop

variable {ρ τ : Type}

/- Replace the record of a range. -/
def MemRange.mapRecord
    (f : ρ → τ)
    (r : MemRange ρ) :
    MemRange τ where
  base := r.base
  size := r.size
  record := r.record.map f
  task := r.task

/- Replace the record of every range of a map. -/
def RangeMap.mapRecord
    (f : ρ → τ)
    (map : RangeMap ρ) :
    RangeMap τ where
  isHash := map.isHash
  root := map.root.map (MemRange.mapRecord f)
  size := map.size

@[simp] theorem initEmptyMap_mapRecord
    (f : ρ → τ) :
    (initEmptyMap : RangeMap ρ).mapRecord f =
      initEmptyMap := rfl

@[simp] theorem ranges_mapRecord
    (f : ρ → τ)
    (map : RangeMap ρ) :
    (map.mapRecord f).ranges =
      map.ranges.map (MemRange.mapRecord f) :=
  BinTree.toList_map _ _

section Tree

variable (f : ρ → τ)

@[simp] theorem bound_mapRecord
    (r : MemRange ρ) :
    (r.mapRecord f).bound = r.bound := rfl

theorem overlap_mapRecord
    (b r : MemRange ρ) :
    overlap (b.mapRecord f) (r.mapRecord f) =
      overlap b r := rfl

theorem bordering_mapRecord
    (n top : MemRange ρ) :
    bordering (n.mapRecord f) (top.mapRecord f) =
      bordering n top := rfl

theorem unionRanges_mapRecord
    (r1 r2 : MemRange ρ) :
    unionRanges (r1.mapRecord f) (r2.mapRecord f) =
      unionRanges r1 r2 := rfl

theorem splay_mapRecord
    (t : RangeNode ρ)
    (key : Nat) :
    splay (t.map (MemRange.mapRecord f)) key =
      (splay t key).map (MemRange.mapRecord f) :=
  (BinTree.map_splay (MemRange.mapRecord f) MemRange.base
    t key).symm

theorem freeSubtree_mapRecord
    (t : RangeNode ρ)
    (size : Nat) :
    freeSubtree (t.map (MemRange.mapRecord f)) size =
      freeSubtree t size := by
  induction t generalizing size with
  | nil => rfl
  | node lc r rc ihl ihr =>
      simp [freeSubtree, BinTree.map, ihl, ihr]

/- The three parts of a result, with other records. -/
def mapAbsorbed
    (x : RangeNode ρ × MemRange ρ × Nat) :
    RangeNode τ × MemRange τ × Nat :=
  (x.1.map (MemRange.mapRecord f), x.2.1.mapRecord f, x.2.2)

theorem absorbLeft_mapRecord
    (t : RangeNode ρ)
    (range : MemRange ρ)
    (size : Nat) :
    absorbLeft (t.map (MemRange.mapRecord f))
        (range.mapRecord f) size =
      mapAbsorbed f (absorbLeft t range size) := by
  induction t generalizing range size with
  | nil => rfl
  | node lc r rc ihl ihr =>
      rw [BinTree.map, absorbLeft.eq_2, absorbLeft.eq_2]
      by_cases hPast : range.base > r.bound
      · rw [if_pos hPast, if_pos (by exact hPast)]
        simp only [ihr]
        rfl
      · rw [if_neg hPast, if_neg (by exact hPast)]
        have hFreed := freeSubtree_mapRecord f
          (.node .nil r rc) size
        simp only [BinTree.map] at hFreed
        simp only [hFreed]
        let base' := min r.base range.base
        exact ihl
          { range with
            base := base'
            size := addrSub range.bound base' } _

theorem absorbRight_mapRecord
    (t : RangeNode ρ)
    (range : MemRange ρ)
    (size : Nat) :
    absorbRight (t.map (MemRange.mapRecord f))
        (range.mapRecord f) size =
      mapAbsorbed f (absorbRight t range size) := by
  induction t generalizing range size with
  | nil => rfl
  | node lc r rc ihl ihr =>
      rw [BinTree.map, absorbRight.eq_2, absorbRight.eq_2]
      by_cases hPast : range.bound < r.base
      · rw [if_pos hPast, if_pos (by exact hPast)]
        simp only [ihl]
        rfl
      · rw [if_neg hPast, if_neg (by exact hPast)]
        have hFreed := freeSubtree_mapRecord f
          (.node lc r .nil) size
        simp only [BinTree.map] at hFreed
        simp only [hFreed]
        exact ihr
          { range with
            size := addrSub (max range.bound r.bound)
              range.base } _

end Tree

/- Adding a range commutes with replacing the records. -/
theorem mapAddRange_mapRecord
    (f : ρ → τ)
    (map : RangeMap ρ)
    (base size : Nat)
    (obj : Option ρ) :
    mapAddRange (map.mapRecord f) base size (obj.map f) =
      (mapAddRange map base size obj).mapRecord f := by
  have hNew : newNode base size (obj.map f) =
      (newNode base size obj).mapRecord f := rfl
  have hSplay :
      splay (map.mapRecord f).root base =
        (splay map.root base).map (MemRange.mapRecord f) :=
    splay_mapRecord f map.root base
  unfold mapAddRange
  rw [hSplay, hNew]
  cases splay map.root base with
  | nil => rfl
  | node lc top rc =>
      simp only [BinTree.map, overlap_mapRecord,
        bordering_mapRecord, unionRanges_mapRecord]
      by_cases hMerge :
          (overlap (newNode base size obj) top).isSome ||
            bordering (newNode base size obj) top
      · rw [if_pos hMerge, if_pos hMerge]
        generalize unionRanges (newNode base size obj) top =
          hull
        have hLeft := absorbLeft_mapRecord f lc
          { top with base := hull.1, size := hull.2 } map.size
        rcases hL : absorbLeft lc
            { top with base := hull.1, size := hull.2 }
            map.size with ⟨lc', left, size'⟩
        rw [hL] at hLeft
        have hRight := absorbRight_mapRecord f rc left size'
        rcases hR : absorbRight rc left size' with
          ⟨rc', range, size''⟩
        rw [hR] at hRight
        simp only [mapAbsorbed, MemRange.mapRecord]
          at hLeft hRight
        simp only [RangeMap.mapRecord, MemRange.mapRecord,
          BinTree.map, hLeft, hRight]
      · rw [if_neg hMerge, if_neg hMerge]
        have hLeft := absorbLeft_mapRecord f lc
          (newNode base size obj) (map.size + 1)
        have hRight := absorbRight_mapRecord f rc
          (newNode base size obj) (map.size + 1)
        rcases hL : absorbLeft lc (newNode base size obj)
            (map.size + 1) with ⟨lc', range, size'⟩
        rcases hR : absorbRight rc (newNode base size obj)
            (map.size + 1) with ⟨rc', range', size''⟩
        rw [hL] at hLeft
        rw [hR] at hRight
        simp only [mapAbsorbed, MemRange.mapRecord]
          at hLeft hRight
        by_cases hLt : base < top.base
        · simp only [RangeMap.mapRecord, MemRange.mapRecord,
            BinTree.map, hLt, if_true, hLeft, hRight]
        · by_cases hGt : base > top.base
          · simp only [RangeMap.mapRecord, MemRange.mapRecord,
              BinTree.map, hLt, hGt, if_true, if_false,
              hLeft, hRight]
          · simp only [RangeMap.mapRecord, MemRange.mapRecord,
              BinTree.map, hLt, hGt, if_false]

end Cbop
