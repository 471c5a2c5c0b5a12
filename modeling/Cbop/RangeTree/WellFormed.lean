import Cbop.RangeTree.Basic
import Mathlib.Data.Set.Lattice
import Mathlib.Order.CompletePartialOrder
import Mathlib.Order.Interval.Set.Basic

/-
  The addresses a list of ranges covers, and the two shapes
  of range map the program keeps: separated ranges (any two
  at least one byte apart, what `map_add_range` builds) and
  disjoint ranges (adjacent ones allowed, what
  `map_add_range_from_task` is meant to build).

  Main declarations:
    * `covered`
    * `Apart`
    * `RangeMap.Keeps`, `RangeMap.WellFormed`
    * `splay_decompose`
-/

namespace Cbop

variable {ρ : Type}

------------------------------------------------------------
-- Addresses
------------------------------------------------------------

/- The addresses of a range. -/
def MemRange.addrs (r : MemRange ρ) : Set Nat :=
  Set.Ico r.base (r.base + r.size)

/- The addresses of a list of ranges. -/
def covered (ranges : List (MemRange ρ)) : Set Nat :=
  { a | ∃ r ∈ ranges, a ∈ r.addrs }

/- The addresses of a map. -/
def RangeMap.covered (map : RangeMap ρ) : Set Nat :=
  Cbop.covered map.ranges

theorem MemRange.mem_addrs
    {r : MemRange ρ}
    {a : Nat} :
    a ∈ r.addrs ↔ r.base ≤ a ∧ a < r.base + r.size :=
  Set.mem_Ico

instance
    (a : Nat)
    (r : MemRange ρ) :
    Decidable (a ∈ r.addrs) :=
  decidable_of_iff _ MemRange.mem_addrs.symm

instance
    (a : Nat)
    (map : RangeMap ρ) :
    Decidable (a ∈ map.covered) :=
  inferInstanceAs
    (Decidable (∃ r ∈ map.ranges, a ∈ r.addrs))

@[simp] theorem covered_nil :
    covered ([] : List (MemRange ρ)) = ∅ := by
  simp [covered]

@[simp] theorem covered_cons
    (r : MemRange ρ)
    (ranges : List (MemRange ρ)) :
    covered (r :: ranges) = r.addrs ∪ covered ranges := by
  ext a
  simp [covered]

@[simp] theorem covered_append
    (left right : List (MemRange ρ)) :
    covered (left ++ right) =
      covered left ∪ covered right := by
  ext a
  simp [covered, or_and_right, exists_or]

theorem mem_covered
    {ranges : List (MemRange ρ)}
    {a : Nat} :
    a ∈ covered ranges ↔ ∃ r ∈ ranges, a ∈ r.addrs :=
  Iff.rfl

------------------------------------------------------------
-- Ranges That Stay Apart
------------------------------------------------------------

/- A stored range: not empty, its end a machine word. -/
structure MemRange.Valid (r : MemRange ρ) : Prop where
  pos : 0 < r.size
  fits : r.base + r.size < 2 ^ 64

instance (r : MemRange ρ) : Decidable r.Valid :=
  decidable_of_iff (0 < r.size ∧ r.base + r.size < 2 ^ 64)
    ⟨fun h => ⟨h.1, h.2⟩, fun h => ⟨h.pos, h.fits⟩⟩

theorem MemRange.Valid.bound_eq
    {r : MemRange ρ}
    (h : r.Valid) :
    r.bound = r.base + r.size :=
  addrAdd_of_lt h.fits

/-
  Valid ranges in address order with `gap` uncovered bytes
  or more between any two of them.
-/
structure Apart
    (gap : Nat)
    (ranges : List (MemRange ρ)) : Prop where
  valid : ∀ r ∈ ranges, r.Valid
  order :
    ranges.Pairwise
      (fun r s => r.base + r.size + gap ≤ s.base)

instance
    (gap : Nat)
    (ranges : List (MemRange ρ)) :
    Decidable (Apart gap ranges) :=
  decidable_of_iff
    ((∀ r ∈ ranges, r.Valid) ∧
      ranges.Pairwise
        (fun r s => r.base + r.size + gap ≤ s.base))
    ⟨fun h => ⟨h.1, h.2⟩, fun h => ⟨h.valid, h.order⟩⟩

namespace Apart

variable {gap : Nat}

theorem nil : Apart gap ([] : List (MemRange ρ)) :=
  ⟨by simp, List.Pairwise.nil⟩

theorem append_iff
    {left right : List (MemRange ρ)} :
    Apart gap (left ++ right) ↔
      Apart gap left ∧ Apart gap right ∧
        ∀ r ∈ left, ∀ s ∈ right,
          r.base + r.size + gap ≤ s.base := by
  constructor
  · intro h
    rcases h with ⟨hValid, hOrder⟩
    rw [List.pairwise_append] at hOrder
    exact
      ⟨⟨fun r hr => hValid r (List.mem_append_left _ hr),
          hOrder.1⟩,
        ⟨fun r hr => hValid r (List.mem_append_right _ hr),
          hOrder.2.1⟩,
        hOrder.2.2⟩
  · intro h
    rcases h with ⟨hLeft, hRight, hCross⟩
    constructor
    · intro r hr
      rcases List.mem_append.mp hr with hr | hr
      · exact hLeft.valid r hr
      · exact hRight.valid r hr
    · rw [List.pairwise_append]
      exact ⟨hLeft.order, hRight.order, hCross⟩

theorem cons_iff
    {r : MemRange ρ}
    {ranges : List (MemRange ρ)} :
    Apart gap (r :: ranges) ↔
      r.Valid ∧ Apart gap ranges ∧
        ∀ s ∈ ranges, r.base + r.size + gap ≤ s.base := by
  constructor
  · intro h
    rcases h with ⟨hValid, hOrder⟩
    rw [List.pairwise_cons] at hOrder
    exact ⟨hValid r (by simp),
      ⟨fun s hs => hValid s (List.mem_cons_of_mem _ hs),
        hOrder.2⟩,
      hOrder.1⟩
  · intro h
    rcases h with ⟨hHead, hTail, hCross⟩
    constructor
    · intro s hs
      rcases List.mem_cons.mp hs with rfl | hs
      · exact hHead
      · exact hTail.valid s hs
    · rw [List.pairwise_cons]
      exact ⟨hCross, hTail.order⟩

/- The three parts of a list around one of its ranges. -/
theorem split_iff
    {left right : List (MemRange ρ)}
    {r : MemRange ρ} :
    Apart gap (left ++ r :: right) ↔
      Apart gap left ∧ r.Valid ∧ Apart gap right ∧
        (∀ s ∈ left, s.base + s.size + gap ≤ r.base) ∧
        (∀ s ∈ right, r.base + r.size + gap ≤ s.base) := by
  rw [append_iff, cons_iff]
  constructor
  · intro h
    rcases h with ⟨hLeft, ⟨hR, hRight, hAfter⟩, hCross⟩
    exact ⟨hLeft, hR, hRight,
      fun s hs => hCross s hs r (by simp), hAfter⟩
  · intro h
    rcases h with ⟨hLeft, hR, hRight, hBefore, hAfter⟩
    refine ⟨hLeft, ⟨hR, hRight, hAfter⟩, ?_⟩
    intro s hs u hu
    rcases List.mem_cons.mp hu with rfl | hu
    · exact hBefore s hs
    · have hSr := hBefore s hs
      have hRu := hAfter u hu
      omega

/- Ranges that are apart are ordered by base address. -/
theorem ordered
    {ranges : List (MemRange ρ)}
    (h : Apart gap ranges) :
    ranges.Pairwise (fun r s => r.base < s.base) := by
  have hBoth :
      ranges.Pairwise (fun r s =>
        r ∈ ranges ∧ r.base + r.size + gap ≤ s.base) := by
    exact h.order.imp_of_mem
      (fun hr _ hLe => ⟨hr, hLe⟩)
  apply hBoth.imp
  intro r s hCase
  rcases hCase with ⟨hr, hLe⟩
  have hPos := (h.valid r hr).pos
  omega

/- A larger gap is also a smaller one. -/
theorem mono
    {smaller : Nat}
    {ranges : List (MemRange ρ)}
    (h : Apart gap ranges)
    (hGap : smaller ≤ gap) :
    Apart smaller ranges :=
  ⟨h.valid, h.order.imp (fun hLe => by omega)⟩

end Apart

------------------------------------------------------------
-- Well-Formed Maps
------------------------------------------------------------

/- A map whose ranges stay `gap` bytes apart. -/
structure RangeMap.Keeps
    (gap : Nat)
    (map : RangeMap ρ) : Prop where
  apart : Apart gap map.ranges
  size_eq : map.size = map.ranges.length

instance
    (gap : Nat)
    (map : RangeMap ρ) :
    Decidable (map.Keeps gap) :=
  decidable_of_iff
    (Apart gap map.ranges ∧ map.size = map.ranges.length)
    ⟨fun h => ⟨h.1, h.2⟩, fun h => ⟨h.apart, h.size_eq⟩⟩

/- The maps `map_add_range` works on. -/
abbrev RangeMap.WellFormed (map : RangeMap ρ) : Prop :=
  map.Keeps 1

theorem keeps_initEmptyMap
    (gap : Nat) :
    (initEmptyMap : RangeMap ρ).Keeps gap :=
  ⟨Apart.nil, rfl⟩

/- A map keeps what its ranges and their count say. -/
theorem keeps_of_ranges
    {gap : Nat}
    {map map' : RangeMap ρ}
    (hMap : map.Keeps gap)
    (hRanges : map'.ranges = map.ranges)
    (hSize : map'.size = map.size) :
    map'.Keeps gap := by
  constructor
  · rw [hRanges]
    exact hMap.apart
  · rw [hRanges, hSize]
    exact hMap.size_eq

@[simp] theorem ranges_initEmptyMap :
    (initEmptyMap : RangeMap ρ).ranges = [] := rfl

@[simp] theorem covered_initEmptyMap :
    (initEmptyMap : RangeMap ρ).covered = ∅ := by
  simp [RangeMap.covered]

@[simp] theorem ranges_eq_nil_iff
    {map : RangeMap ρ} :
    map.ranges = [] ↔ map.root = .nil :=
  BinTree.toList_eq_nil_iff map.root

@[simp] theorem toList_splay
    (t : RangeNode ρ)
    (key : Nat) :
    (splay t key).toList = t.toList :=
  BinTree.toList_splay _ _ _

@[simp] theorem splay_nil
    (key : Nat) :
    splay (.nil : RangeNode ρ) key = .nil := rfl

/-
  What a splay at `key` shows of a tree of ranges that are
  apart: its root, with the ranges based below `key` on the
  left and those based above `key` on the right.
-/
theorem splay_decompose
    {gap : Nat}
    {t : RangeNode ρ}
    (key : Nat)
    (hNode : t ≠ .nil)
    (hApart : Apart gap t.toList) :
    ∃ lc top rc, splay t key = .node lc top rc ∧
      lc.toList ++ top :: rc.toList = t.toList ∧
      (∀ r ∈ lc.toList, r.base < key) ∧
      (∀ r ∈ rc.toList, key < r.base) :=
  BinTree.splay_spec MemRange.base key hNode hApart.ordered

theorem freeSubtree_eq
    (t : RangeNode ρ)
    (size : Nat) :
    freeSubtree t size = size - t.toList.length := by
  induction t generalizing size with
  | nil => rfl
  | node lc r rc ihl ihr =>
      simp only [freeSubtree, ihl, ihr,
        BinTree.toList_node, List.length_append,
        List.length_cons]
      omega

end Cbop
