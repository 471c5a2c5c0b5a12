import Cbop.RangeTree.AddRange

/-
  Searching a map of disjoint ranges. `map_overlaps` visits
  one path of the tree and still finds the lowest stored
  range that shares a byte with the input, because the
  ranges left of a node end before it.

  Main declarations:
    * `Meets`
    * `overlap_of_meets`, `overlap_of_not_meets`
    * `subtreeOverlaps_spec`
    * `mapOverlaps_eq_none_iff`
    * `IsLowest`, `mapOverlaps_lowest`
-/

namespace Cbop

variable {ρ : Type}

------------------------------------------------------------
-- Common Parts
------------------------------------------------------------

/- Two ranges share an address. -/
def Meets (r s : MemRange ρ) : Prop :=
  r.base < s.base + s.size ∧ s.base < r.base + r.size

instance (r s : MemRange ρ) : Decidable (Meets r s) :=
  inferInstanceAs (Decidable (_ ∧ _))

theorem Meets.symm
    {r s : MemRange ρ}
    (h : Meets r s) :
    Meets s r :=
  ⟨h.2, h.1⟩

/- Ranges with a common address meet. -/
theorem meets_of_mem
    {r s : MemRange ρ}
    {a : Nat}
    (hR : a ∈ r.addrs)
    (hS : a ∈ s.addrs) :
    Meets r s := by
  rw [MemRange.mem_addrs] at hR hS
  exact ⟨by omega, by omega⟩

/- Ranges that meet have a common address. -/
theorem exists_mem_of_meets
    {r s : MemRange ρ}
    (h : Meets r s)
    (hR : r.Valid)
    (hS : s.Valid) :
    ∃ a, a ∈ r.addrs ∧ a ∈ s.addrs := by
  rcases h with ⟨hLt, hGt⟩
  have hRPos := hR.pos
  have hSPos := hS.pos
  refine ⟨max r.base s.base, ?_, ?_⟩
  · rw [MemRange.mem_addrs]
    omega
  · rw [MemRange.mem_addrs]
    omega

/- Meeting is having an address in common. -/
theorem meets_iff_nonempty
    {r s : MemRange ρ}
    (hR : r.Valid)
    (hS : s.Valid) :
    Meets r s ↔ (r.addrs ∩ s.addrs).Nonempty := by
  constructor
  · intro h
    exact exists_mem_of_meets h hR hS
  · intro hGiven
    rcases hGiven with ⟨a, haR, haS⟩
    exact meets_of_mem haR haS

/- Base and size of the common part of two ranges. -/
def commonPart (r s : MemRange ρ) : Nat × Nat :=
  (max r.base s.base,
    min (r.base + r.size) (s.base + s.size) -
      max r.base s.base)

/- The addresses of the common part. -/
theorem addrs_commonPart
    {r s : MemRange ρ}
    {obase osize : Nat}
    (hPart : (obase, osize) = commonPart r s) :
    Set.Ico obase (obase + osize) = r.addrs ∩ s.addrs := by
  rw [commonPart, Prod.mk.injEq] at hPart
  rcases hPart with ⟨hBase, hSize⟩
  ext a
  rw [Set.mem_inter_iff, MemRange.mem_addrs,
    MemRange.mem_addrs, Set.mem_Ico]
  omega

theorem overlap_of_meets
    {b r : MemRange ρ}
    (hB : b.Valid)
    (hR : r.Valid)
    (hMeets : Meets b r) :
    overlap b r = some (commonPart b r) := by
  rcases hMeets with ⟨hLt, hGt⟩
  have hBFits := hB.fits
  have hRFits := hR.fits
  unfold overlap commonPart
  rw [hB.bound_eq, hR.bound_eq]
  by_cases hLe : b.base ≤ r.base
  · by_cases hEnd :
        b.base + b.size ≤ r.base + r.size
    · rw [if_pos hLe, if_pos hGt, if_pos hEnd,
        addrSub_of_le (by omega) hBFits]
      simp only [Option.some.injEq, Prod.mk.injEq]
      omega
    · rw [if_pos hLe, if_pos hGt, if_neg hEnd]
      simp only [Option.some.injEq, Prod.mk.injEq]
      omega
  · by_cases hEnd :
        r.base + r.size ≤ b.base + b.size
    · rw [if_neg hLe, if_pos hLt, if_pos hEnd,
        addrSub_of_le (by omega) hRFits]
      simp only [Option.some.injEq, Prod.mk.injEq]
      omega
    · rw [if_neg hLe, if_pos hLt, if_neg hEnd]
      simp only [Option.some.injEq, Prod.mk.injEq]
      omega

theorem overlap_of_not_meets
    {b r : MemRange ρ}
    (hB : b.Valid)
    (hR : r.Valid)
    (hMeets : ¬ Meets b r) :
    overlap b r = none := by
  rw [← Option.not_isSome_iff_eq_none,
    overlap_isSome_iff hB hR]
  exact hMeets

------------------------------------------------------------
-- Searching for an Overlap
------------------------------------------------------------

/-
  The two answers of the search: no stored range meets the
  input, or the first one that does, with the common part.
-/
def FindsLowest
    (ranges : List (MemRange ρ))
    (inp : MemRange ρ)
    (answer : Option (Nat × Nat)) : Prop :=
  (answer = none ∧ ∀ r ∈ ranges, ¬ Meets r inp) ∨
  (∃ before r after,
    ranges = before ++ r :: after ∧
    (∀ s ∈ before, ¬ Meets s inp) ∧
    Meets r inp ∧
    answer = some (commonPart r inp))

namespace FindsLowest

variable {ranges : List (MemRange ρ)}
variable {inp : MemRange ρ}
variable {answer : Option (Nat × Nat)}

/- Ranges before the input do not change the answer. -/
theorem skip_before
    {before : List (MemRange ρ)}
    (h : FindsLowest ranges inp answer)
    (hSkip : ∀ s ∈ before, ¬ Meets s inp) :
    FindsLowest (before ++ ranges) inp answer := by
  rcases h with ⟨hNone, hFree⟩ |
    ⟨first, r, after, hList, hFree, hMeets, hEq⟩
  · left
    refine ⟨hNone, ?_⟩
    intro s hs
    rcases List.mem_append.mp hs with hs | hs
    · exact hSkip s hs
    · exact hFree s hs
  · right
    refine ⟨before ++ first, r, after, ?_, ?_, hMeets, hEq⟩
    · rw [hList, List.append_assoc]
    · intro s hs
      rcases List.mem_append.mp hs with hs | hs
      · exact hSkip s hs
      · exact hFree s hs

/- Nothing after the first hit changes the answer. -/
theorem append_some
    {part : Nat × Nat}
    (h : FindsLowest ranges inp (some part))
    (after : List (MemRange ρ)) :
    FindsLowest (ranges ++ after) inp (some part) := by
  rcases h with ⟨hNone, _⟩ |
    ⟨before, r, rest, hList, hFree, hMeets, hEq⟩
  · cases hNone
  · right
    refine ⟨before, r, rest ++ after, ?_, hFree, hMeets, hEq⟩
    rw [hList, List.append_assoc, List.cons_append]

/- Neither do ranges past the input. -/
theorem skip_after
    {after : List (MemRange ρ)}
    (h : FindsLowest ranges inp answer)
    (hSkip : ∀ s ∈ after, ¬ Meets s inp) :
    FindsLowest (ranges ++ after) inp answer := by
  cases answer with
  | some part => exact h.append_some after
  | none =>
      rcases h with ⟨_, hFree⟩ |
        ⟨_, _, _, _, _, _, hEq⟩
      · left
        refine ⟨rfl, ?_⟩
        intro s hs
        rcases List.mem_append.mp hs with hs | hs
        · exact hFree s hs
        · exact hSkip s hs
      · cases hEq

/- A node that decides: the ranges after it start later. -/
theorem of_node
    {before after : List (MemRange ρ)}
    {r : MemRange ρ}
    (hR : r.Valid)
    (hInp : inp.Valid)
    (hStart : inp.base < r.base + r.size)
    (hBefore : ∀ s ∈ before, ¬ Meets s inp)
    (hAfter : ∀ s ∈ after, r.base + r.size ≤ s.base) :
    FindsLowest (before ++ r :: after) inp
      (overlap r inp) := by
  by_cases hMeets : Meets r inp
  · right
    exact ⟨before, r, after, rfl, hBefore, hMeets,
      overlap_of_meets hR hInp hMeets⟩
  · have hPast : inp.base + inp.size ≤ r.base := by
      by_contra hLt
      exact hMeets ⟨by omega, hStart⟩
    rw [overlap_of_not_meets hR hInp hMeets]
    left
    refine ⟨rfl, ?_⟩
    intro s hs hMeetsS
    rcases List.mem_append.mp hs with hs | hs
    · exact hBefore s hs hMeetsS
    · rcases List.mem_cons.mp hs with rfl | hs
      · exact hMeets hMeetsS
      · have hLe := hAfter s hs
        have hLt := hMeetsS.1
        omega

/-
  Ranges that end within the first `size` bytes of the input
  see no more of it than these.
-/
theorem of_head
    {size : Nat}
    (h : FindsLowest ranges { inp with size := size } answer)
    (hLe : size ≤ inp.size)
    (hEnds : ∀ s ∈ ranges,
      0 < s.size ∧ s.base + s.size ≤ inp.base + size) :
    FindsLowest ranges inp answer := by
  have hSame :
      ∀ s ∈ ranges,
        Meets s inp → Meets s { inp with size := size } := by
    intro s hs hMeets
    have hEnd := hEnds s hs
    refine ⟨?_, hMeets.2⟩
    change s.base < inp.base + size
    omega
  rcases h with ⟨hNone, hFree⟩ |
    ⟨before, r, after, hList, hFree, hMeets, hEq⟩
  · left
    refine ⟨hNone, ?_⟩
    intro s hs hMeets
    exact hFree s hs (hSame s hs hMeets)
  · right
    have hEnd := hEnds r (by rw [hList]; simp)
    rcases hMeets with ⟨hLt, hGt⟩
    change r.base < inp.base + size at hLt
    change inp.base < r.base + r.size at hGt
    refine ⟨before, r, after, hList, ?_, ?_, ?_⟩
    · intro s hs hMeets
      apply hFree s hs
      apply hSame s _ hMeets
      rw [hList]
      exact List.mem_append_left _ hs
    · exact ⟨by omega, hGt⟩
    · rw [hEq]
      simp only [commonPart, Option.some.injEq,
        Prod.mk.injEq, true_and]
      omega

end FindsLowest

theorem subtreeOverlaps_spec
    (t : RangeNode ρ)
    (inp : MemRange ρ)
    (hApart : Apart 0 t.toList)
    (hInp : inp.Valid) :
    FindsLowest t.toList inp (subtreeOverlaps t inp) := by
  induction t generalizing inp with
  | nil =>
      left
      exact ⟨rfl, by simp⟩
  | node lc r rc ihl ihr =>
      rw [BinTree.toList_node] at hApart ⊢
      rw [Apart.split_iff] at hApart
      rcases hApart with
        ⟨hLc, hR, hRc, hBefore, hAfter⟩
      have hRPos := hR.pos
      have hRFits := hR.fits
      have hInpPos := hInp.pos
      rw [subtreeOverlaps, hR.bound_eq, hInp.bound_eq]
      by_cases hEndsBefore : r.base + r.size ≤ inp.base
      · -- everything up to this node ends before the input
        rw [if_pos hEndsBefore, List.append_cons]
        apply (ihr inp hRc hInp).skip_before
        intro s hs hMeets
        have hGt := hMeets.2
        rcases List.mem_append.mp hs with hs | hs
        · have hSr := hBefore s hs
          omega
        · rw [List.mem_singleton] at hs
          subst hs
          omega
      · rw [if_neg hEndsBefore]
        by_cases hPast : r.base > inp.base + inp.size
        · -- this node and everything after it lie past it
          rw [if_pos hPast]
          apply (ihl inp hLc hInp).skip_after
          intro s hs hMeets
          have hLt := hMeets.1
          rcases List.mem_cons.mp hs with rfl | hs
          · omega
          · have hRs := hAfter s hs
            omega
        · rw [if_neg hPast]
          by_cases hHead : r.base > inp.base
          · -- the head of the input decides the left subtree
            rw [if_pos hHead,
              addrSub_of_le (by omega) (by omega)]
            have hHeadValid :
                MemRange.Valid
                  { inp with size := r.base - inp.base } := by
              constructor
              · change 0 < r.base - inp.base
                omega
              · change inp.base + (r.base - inp.base)
                  < 2 ^ 64
                omega
            have hLeft :
                FindsLowest lc.toList inp
                  (subtreeOverlaps lc
                    { inp with
                      size := r.base - inp.base }) := by
              apply (ihl _ hLc hHeadValid).of_head
              · omega
              · intro s hs
                have hSr := hBefore s hs
                exact ⟨(hLc.valid s hs).pos, by omega⟩
            cases hAnswer :
                subtreeOverlaps lc
                  { inp with size := r.base - inp.base } with
            | some part =>
                simp only [hAnswer] at hLeft ⊢
                exact hLeft.append_some _
            | none =>
                simp only [hAnswer] at hLeft ⊢
                apply FindsLowest.of_node hR hInp (by omega)
                · rcases hLeft with ⟨_, hFree⟩ |
                    ⟨_, _, _, _, _, _, hEq⟩
                  · exact hFree
                  · cases hEq
                · exact hAfter
          · -- the node holds the first byte of the input
            rw [if_neg hHead]
            apply FindsLowest.of_node hR hInp (by omega)
            · intro s hs hMeets
              have hSr := hBefore s hs
              have hGt := hMeets.2
              omega
            · exact hAfter

/- A search fails, or finds a stored range that meets. -/
theorem mapOverlaps_cases
    {map : RangeMap ρ}
    {inp : MemRange ρ}
    (hApart : Apart 0 map.ranges)
    (hInp : inp.Valid) :
    (mapOverlaps map inp = none ∧
      ∀ r ∈ map.ranges, ¬ Meets r inp) ∨
    ∃ r ∈ map.ranges, Meets r inp ∧
      mapOverlaps map inp = some (commonPart r inp) := by
  rcases subtreeOverlaps_spec map.root inp hApart hInp with
    ⟨hNone, hFree⟩ |
    ⟨before, r, after, hList, _, hMeets, hSome⟩
  · exact Or.inl ⟨hNone, hFree⟩
  · right
    refine ⟨r, ?_, hMeets, hSome⟩
    rw [RangeMap.ranges, hList]
    simp

/- A failed search means that no stored range meets. -/
theorem mapOverlaps_eq_none_iff
    {map : RangeMap ρ}
    {inp : MemRange ρ}
    (hApart : Apart 0 map.ranges)
    (hInp : inp.Valid) :
    mapOverlaps map inp = none ↔
      ∀ r ∈ map.ranges, ¬ Meets r inp := by
  rcases mapOverlaps_cases hApart hInp with
    ⟨hNone, hFree⟩ | ⟨r, hr, hMeets, hSome⟩
  · exact ⟨fun _ => hFree, fun _ => hNone⟩
  · constructor
    · intro hNone
      rw [hNone] at hSome
      cases hSome
    · intro hFree
      exact absurd hMeets (hFree r hr)

/- A search that succeeds has found the first that meets. -/
theorem mapOverlaps_found
    {map : RangeMap ρ}
    {inp : MemRange ρ}
    {obase osize : Nat}
    (hApart : Apart 0 map.ranges)
    (hInp : inp.Valid)
    (h : mapOverlaps map inp = some (obase, osize)) :
    ∃ before r after,
      map.ranges = before ++ r :: after ∧
      (∀ s ∈ before, ¬ Meets s inp) ∧
      Meets r inp ∧
      (obase, osize) = commonPart r inp := by
  unfold mapOverlaps at h
  rcases subtreeOverlaps_spec map.root inp hApart hInp with
    ⟨hNone, _⟩ |
    ⟨before, r, after, hList, hBefore, hMeets, hSome⟩
  · rw [hNone] at h
    cases h
  · rw [h, Option.some.injEq] at hSome
    exact ⟨before, r, after, hList, hBefore, hMeets, hSome⟩

/- The lowest stored range with a byte of the input. -/
structure IsLowest
    (ranges : List (MemRange ρ))
    (inp r : MemRange ρ) : Prop where
  mem : r ∈ ranges
  shares : (r.addrs ∩ inp.addrs).Nonempty
  lowest : ∀ s ∈ ranges,
    (s.addrs ∩ inp.addrs).Nonempty → r.base ≤ s.base

/- Of ranges in order, the first that meets is the lowest. -/
theorem isLowest_of_first
    {before after : List (MemRange ρ)}
    {inp r : MemRange ρ}
    (hApart : Apart 0 (before ++ r :: after))
    (hInp : inp.Valid)
    (hBefore : ∀ s ∈ before, ¬ Meets s inp)
    (hMeets : Meets r inp) :
    IsLowest (before ++ r :: after) inp r := by
  have hParts := hApart
  rw [Apart.split_iff] at hParts
  rcases hParts with ⟨hBeforeApart, hR, _, _, hAfter⟩
  refine ⟨by simp, (meets_iff_nonempty hR hInp).mp hMeets, ?_⟩
  intro s hs hShares
  have hS := hApart.valid s hs
  have hMeetsS := (meets_iff_nonempty hS hInp).mpr hShares
  rcases List.mem_append.mp hs with hs | hs
  · exact absurd hMeetsS (hBefore s hs)
  · rcases List.mem_cons.mp hs with rfl | hs
    · exact Nat.le_refl _
    · have hLe := hAfter s hs
      omega

/-
  A search succeeds exactly if a stored range shares a byte
  with the query, and then returns the part of the query
  that lies in the lowest such range.
-/
theorem mapOverlaps_lowest
    {map : RangeMap ρ}
    {inp : MemRange ρ}
    (hApart : Apart 0 map.ranges)
    (hInp : inp.Valid) :
    ((mapOverlaps map inp).isSome ↔
      ∃ r ∈ map.ranges, (r.addrs ∩ inp.addrs).Nonempty) ∧
    ∀ obase osize,
      mapOverlaps map inp = some (obase, osize) →
        ∃ r, IsLowest map.ranges inp r ∧
          Set.Ico obase (obase + osize) =
            r.addrs ∩ inp.addrs := by
  constructor
  · rw [← Option.ne_none_iff_isSome, ne_eq,
      mapOverlaps_eq_none_iff hApart hInp]
    push Not
    constructor
    · intro hGiven
      rcases hGiven with ⟨r, hr, hMeets⟩
      exact ⟨r, hr, (meets_iff_nonempty
        (hApart.valid r hr) hInp).mp hMeets⟩
    · intro hGiven
      rcases hGiven with ⟨r, hr, hShares⟩
      exact ⟨r, hr, (meets_iff_nonempty
        (hApart.valid r hr) hInp).mpr hShares⟩
  · intro obase osize hFound
    rcases mapOverlaps_found hApart hInp hFound with
      ⟨before, r, after, hRanges, hBefore, hMeets, hPart⟩
    rw [hRanges] at hApart ⊢
    exact ⟨r, isLowest_of_first hApart hInp hBefore hMeets,
      addrs_commonPart hPart⟩

/- Two adjacent ranges and one apart from them. -/
def adjacentRanges : RangeMap Nat where
  isHash := false
  root := .node (.node .nil (newNode 8 4 none) .nil)
    (newNode 12 4 none) (.node .nil (newNode 20 4 none) .nil)
  size := 3

/- A query over all of them finds the lowest. -/
theorem mapOverlaps_adjacentRanges :
    ∃ r, IsLowest adjacentRanges.ranges
        (newNode 6 20 none) r ∧
      Set.Ico 8 (8 + 4) =
        r.addrs ∩ (newNode 6 20 (none : Option Nat)).addrs :=
  (mapOverlaps_lowest (by decide) (by decide)).2 8 4
    (by decide)

end Cbop
