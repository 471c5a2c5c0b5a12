import Cbop.RangeTree.Overlaps

/-
  `map_union` into an empty map, `map_intersect` and
  `map_subtract` on the addresses of well-formed maps.

  All three add ranges in address order. Such an insertion
  lies above everything the map covers, so it is set union
  even where `map_add_range` in general is not; a range that
  leaves a gap to the map becomes a new last range. The
  loops enumerate the overlaps of a range from its lower
  end: what lies below the end of the overlap found is
  settled, and the rest of the range is shorter.

  Main declarations:
    * `mapAddRange_above`, `foldlM_ascending`
    * `mapAddRange_append`, `foldl_mapAddRange`
    * `mapClone_spec`
    * `Pieces`, `PartsOf`, `foldlM_pieces`
    * `StartsClear`, `mapIntersect_parts`,
      `mapIntersect_inter`
    * `mapSubtract_parts`, `mapSubtract_diff`
-/

namespace Cbop

variable {ρ : Type}

------------------------------------------------------------
-- Insertion in Address Order
------------------------------------------------------------

/- A stored range lies in what the map covers. -/
theorem addrs_subset_covered
    {map : RangeMap ρ}
    {r : MemRange ρ}
    (hr : r ∈ map.ranges) :
    r.addrs ⊆ map.covered :=
  fun _ ha => ⟨r, hr, ha⟩

/- Above everything covered, insertion is set union. -/
theorem mapAddRange_above
    {map : RangeMap ρ}
    {base size : Nat}
    (obj : Option ρ)
    (hMap : map.WellFormed)
    (hSize : 0 < size)
    (hFits : base + size < 2 ^ 64)
    (hBelow : ∀ b ∈ map.covered, b < base) :
    (mapAddRange map base size obj).WellFormed ∧
      (mapAddRange map base size obj).covered =
        map.covered ∪ Set.Ico base (base + size) := by
  rcases mapAddRange_spec obj hMap hSize hFits with
    ⟨hWell, hCovered⟩
  refine ⟨hWell, hCovered.mpr ?_⟩
  intro p hp hLow hHigh
  -- the last byte of `p` would lie above the new base
  have hLast : p.base + p.size - 1 ∈ map.covered := by
    apply addrs_subset_covered hp
    rw [MemRange.mem_addrs]
    have hPos := (hMap.apart.valid p hp).pos
    omega
  have hLt := hBelow _ hLast
  omega

/- A range after all stored ones is stored at the end. -/
theorem mapAddRange_append
    {map : RangeMap ρ}
    {base size : Nat}
    (obj : Option ρ)
    (hMap : map.WellFormed)
    (hSize : 0 < size)
    (hFits : base + size < 2 ^ 64)
    (hAfter : ∀ r ∈ map.ranges, r.base + r.size < base) :
    (mapAddRange map base size obj).WellFormed ∧
      (mapAddRange map base size obj).ranges =
        map.ranges ++ [newNode base size obj] := by
  refine ⟨(mapAddRange_spec obj hMap hSize hFits).1, ?_⟩
  by_cases hNil : map.root = .nil
  · have hRanges : map.ranges = [] :=
      ranges_eq_nil_iff.mpr hNil
    rw [mapAddRange_of_empty base size obj hNil, hRanges]
    rfl
  · rcases splay_decompose base hNil hMap.apart with
      ⟨lc, top, rc, hSplay, hList, _, hRc⟩
    have hRanges : map.ranges = lc.toList ++ top :: rc.toList :=
      hList.symm
    -- nothing is based above the new range
    have hRcNil : rc = .nil := by
      rw [← BinTree.toList_eq_nil_iff]
      by_contra hNe
      rcases List.exists_mem_of_ne_nil _ hNe with ⟨r, hr⟩
      have hAbove := hRc r hr
      have hBelow := hAfter r (by rw [hRanges]; simp [hr])
      omega
    subst hRcNil
    have hTop := hAfter top (by rw [hRanges]; simp)
    have hTopValid :=
      hMap.apart.valid top (by rw [hRanges]; simp)
    have hN := newNode_valid obj hSize hFits
    have hTouch :
        ¬ ((overlap (newNode base size obj) top).isSome ||
            bordering (newNode base size obj) top) = true := by
      rw [touches_iff hN hTopValid]
      change ¬ (base ≤ top.base + top.size ∧ _)
      omega
    have hNotLt : ¬ base < top.base := by omega
    have hGt : base > top.base := by omega
    unfold mapAddRange
    rw [hSplay]
    simp only [hTouch, if_false, hNotLt, hGt, if_true,
      absorbRight]
    rw [hRanges]
    simp [RangeMap.ranges, BinTree.toList]

/- A range stored anew, with the record chosen for it. -/
def restored
    (obj : MemRange ρ → Option ρ)
    (r : MemRange ρ) :
    MemRange ρ :=
  newNode r.base r.size (obj r)

@[simp] theorem covered_map_restored
    (obj : MemRange ρ → Option ρ)
    (ranges : List (MemRange ρ)) :
    covered (ranges.map (restored obj)) = covered ranges := by
  induction ranges with
  | nil => rfl
  | cons r rest ih =>
      rw [List.map_cons, covered_cons, covered_cons, ih]
      rfl

/- Ranges that come in order and apart stay as they are. -/
theorem foldl_mapAddRange
    (obj : MemRange ρ → Option ρ)
    (ranges : List (MemRange ρ))
    (map : RangeMap ρ)
    (hMap : map.WellFormed)
    (hApart : Apart 1 (map.ranges ++ ranges)) :
    (ranges.foldl (fun acc range =>
        mapAddRange acc range.base range.size (obj range))
      map).WellFormed ∧
    (ranges.foldl (fun acc range =>
        mapAddRange acc range.base range.size (obj range))
      map).ranges =
        map.ranges ++ ranges.map (restored obj) := by
  induction ranges generalizing map with
  | nil =>
      refine ⟨hMap, ?_⟩
      simp
  | cons r rest ih =>
      rw [Apart.split_iff] at hApart
      rcases hApart with ⟨hLeft, hR, hRest, hBefore, hAfter⟩
      rcases mapAddRange_append (obj r) hMap hR.pos hR.fits
          (fun s hs => hBefore s hs) with
        ⟨hWell, hAdd⟩
      have hNew : (restored obj r).Valid := ⟨hR.pos, hR.fits⟩
      have hNext :
          Apart 1 ((mapAddRange map r.base r.size
            (obj r)).ranges ++ rest) := by
        rw [hAdd, List.append_assoc, List.singleton_append]
        exact Apart.split_iff.mpr
          ⟨hLeft, hNew, hRest, hBefore, hAfter⟩
      rcases ih _ hWell hNext with ⟨hWell', hRanges'⟩
      refine ⟨hWell', ?_⟩
      rw [List.foldl_cons, hRanges', hAdd, List.map_cons,
        List.append_assoc]
      rfl

/- `map_clone` copies the ranges of a well-formed map. -/
theorem mapClone_spec
    {source : RangeMap ρ}
    (hSource : source.WellFormed) :
    (mapClone source).WellFormed ∧
      (mapClone source).ranges =
        source.ranges.map (restored MemRange.record) :=
  foldl_mapAddRange MemRange.record source.ranges
    initEmptyMap (keeps_initEmptyMap 1) hSource.apart

/- The copy covers the same addresses. -/
theorem covered_mapClone
    {source : RangeMap ρ}
    (hSource : source.WellFormed) :
    (mapClone source).covered = source.covered := by
  unfold RangeMap.covered
  rw [(mapClone_spec hSource).2, covered_map_restored]

theorem mapClear_spec
    (map : RangeMap ρ) :
    (mapClear map).WellFormed ∧ (mapClear map).covered = ∅ := by
  refine ⟨⟨Apart.nil, rfl⟩, ?_⟩
  simp [RangeMap.covered, RangeMap.ranges, mapClear]

/- A map covers nothing exactly if it has no range. -/
theorem covered_eq_empty_iff
    {gap : Nat}
    {map : RangeMap ρ}
    (hMap : Apart gap map.ranges) :
    map.covered = ∅ ↔ map.ranges = [] := by
  constructor
  · intro hEmpty
    by_contra hNe
    rcases List.exists_mem_of_ne_nil _ hNe with ⟨r, hr⟩
    have hMem : r.base ∈ map.covered := by
      apply addrs_subset_covered hr
      rw [MemRange.mem_addrs]
      have hPos := (hMap.valid r hr).pos
      omega
    rw [hEmpty] at hMem
    exact hMem
  · intro hNil
    simp [RangeMap.covered, hNil]

/-
  The outer loops, over ranges in address order: a step that
  adds the addresses of its range in `keep` to a state whose
  map lies below it.
-/
theorem foldlM_ascending
    {m : Type → Type}
    [Monad m] [LawfulMonad m]
    {σ : Type}
    {f : σ → MemRange ρ → m σ}
    (data : σ → RangeMap ρ)
    (inv : σ → Prop)
    (keep : Set Nat)
    (ranges : List (MemRange ρ))
    (acc : σ)
    (hApart : Apart 1 ranges)
    (hAcc : inv acc)
    (hBelow : ∀ b ∈ (data acc).covered,
      ∀ r ∈ ranges, b < r.base)
    (hStep : ∀ acc, ∀ r ∈ ranges, inv acc →
      (∀ b ∈ (data acc).covered, b < r.base) →
        ∃ next, f acc r = pure next ∧ inv next ∧
          (data next).covered =
            (data acc).covered ∪ (r.addrs ∩ keep)) :
    ∃ acc', ranges.foldlM f acc = pure acc' ∧ inv acc' ∧
      (data acc').covered =
        (data acc).covered ∪ (covered ranges ∩ keep) := by
  induction ranges generalizing acc with
  | nil =>
      refine ⟨acc, rfl, hAcc, ?_⟩
      simp
  | cons r rest ih =>
      rw [Apart.cons_iff] at hApart
      rcases hApart with ⟨hR, hRest, hAfter⟩
      rcases hStep acc r List.mem_cons_self hAcc
          (fun b hb => hBelow b hb r List.mem_cons_self) with
        ⟨next, hNext, hInv, hCovered⟩
      have hNextBelow :
          ∀ b ∈ (data next).covered,
            ∀ s ∈ rest, b < s.base := by
        intro b hb s hs
        rw [hCovered, Set.mem_union, Set.mem_inter_iff,
          MemRange.mem_addrs] at hb
        rcases hb with hb | ⟨hb, -⟩
        · exact hBelow b hb s (List.mem_cons_of_mem r hs)
        · have hLe := hAfter s hs
          omega
      have hRestStep := fun acc s hs =>
        hStep acc s (List.mem_cons_of_mem r hs)
      rcases ih next hRest hInv hNextBelow hRestStep with
        ⟨acc', hRet, hInv', hCovered'⟩
      refine ⟨acc', ?_, hInv', ?_⟩
      · rw [List.foldlM_cons, hNext, pure_bind]
        exact hRet
      · rw [hCovered', hCovered, covered_cons,
          Set.union_inter_distrib_right, Set.union_assoc]

------------------------------------------------------------
-- Enumerating Overlaps
------------------------------------------------------------

/- An overlap found is the lowest part that is covered. -/
theorem mapOverlaps_eq_some
    {ref : RangeMap ρ}
    {range : MemRange ρ}
    {obase osize : Nat}
    (hRef : Apart 0 ref.ranges)
    (hRange : range.Valid)
    (h : mapOverlaps ref range = some (obase, osize)) :
    0 < osize ∧ range.base ≤ obase ∧
      obase + osize ≤ range.base + range.size ∧
      ∀ a, range.base ≤ a → a < obase + osize →
        (a ∈ ref.covered ↔ obase ≤ a) := by
  rcases mapOverlaps_found hRef hRange h with
    ⟨before, r, after, hRanges, hBefore, ⟨hLow, hHigh⟩,
      hPart⟩
  simp only [commonPart, Prod.mk.injEq] at hPart
  rcases hPart with ⟨hBase, hSize⟩
  rw [hRanges, Apart.split_iff] at hRef
  rcases hRef with ⟨hBeforeApart, hR, -, hLower, hUpper⟩
  have hRPos := hR.pos
  have hRangePos := hRange.pos
  refine ⟨by omega, by omega, by omega, ?_⟩
  intro a hLe hLt
  constructor
  · intro hCase
    rcases hCase with ⟨q, hq, ha⟩
    rw [MemRange.mem_addrs] at ha
    change q ∈ ref.ranges at hq
    rw [hRanges, List.mem_append, List.mem_cons] at hq
    rcases hq with hq | rfl | hq
    · exact absurd ⟨by omega, by omega⟩ (hBefore q hq)
    · omega
    · have hAbove := hUpper q hq
      omega
  · intro hIn
    refine ⟨r, ?_, ?_⟩
    · rw [hRanges]
      simp
    · rw [MemRange.mem_addrs]
      omega

/- Past an overlap that ends inside a range is a gap. -/
theorem notMem_end_of_mapOverlaps
    {ref : RangeMap ρ}
    {range : MemRange ρ}
    {obase osize : Nat}
    (hRef : Apart 1 ref.ranges)
    (hRange : range.Valid)
    (h : mapOverlaps ref range = some (obase, osize))
    (hInside : obase + osize < range.base + range.size) :
    obase + osize ∉ ref.covered := by
  rcases mapOverlaps_found (hRef.mono (Nat.zero_le 1)) hRange
      h with
    ⟨before, r, after, hRanges, _, ⟨hLow, hHigh⟩, hPart⟩
  simp only [commonPart, Prod.mk.injEq] at hPart
  rcases hPart with ⟨hBase, hSize⟩
  rw [hRanges, Apart.split_iff] at hRef
  rcases hRef with ⟨_, hR, -, hLower, hUpper⟩
  have hRPos := hR.pos
  -- the overlap ends where the stored range does
  have hEnd : obase + osize = r.base + r.size := by omega
  intro hCase
  rcases hCase with ⟨q, hq, hMem⟩
  rw [MemRange.mem_addrs, hEnd] at hMem
  change q ∈ ref.ranges at hq
  rw [hRanges, List.mem_append, List.mem_cons] at hq
  rcases hq with hq | rfl | hq
  · have hBelow := hLower q hq
    omega
  · omega
  · have hAbove := hUpper q hq
    omega

/- Without an overlap nothing of the range is covered. -/
theorem notMem_of_mapOverlaps
    {ref : RangeMap ρ}
    {range : MemRange ρ}
    (hRef : Apart 0 ref.ranges)
    (hRange : range.Valid)
    (h : mapOverlaps ref range = none) :
    ∀ a ∈ range.addrs, a ∉ ref.covered := by
  intro a ha hCase
  rcases hCase with ⟨q, hq, hqa⟩
  exact (mapOverlaps_eq_none_iff hRef hRange).mp h q hq
    (meets_of_mem hqa ha)

/- The part of a range above an overlap found in it. -/
def rangeAbove
    (range : MemRange ρ)
    (obase osize : Nat) :
    MemRange ρ :=
  { range with
    base := addrAdd obase osize
    size := addrSub range.bound (addrAdd obase osize) }

theorem rangeAbove_extent
    {range : MemRange ρ}
    {obase osize : Nat}
    (hRange : range.Valid)
    (hEnd : obase + osize ≤ range.base + range.size) :
    (rangeAbove range obase osize).base = obase + osize ∧
      (rangeAbove range obase osize).size =
        range.base + range.size - (obase + osize) := by
  have hFits := hRange.fits
  have hNext : addrAdd obase osize = obase + osize :=
    addrAdd_of_lt (by omega)
  refine ⟨hNext, ?_⟩
  change addrSub range.bound (addrAdd obase osize) = _
  rw [hNext, hRange.bound_eq, addrSub_of_le hEnd hFits]

/- What a reference map covers of a range, split. -/
theorem addrs_inter_split
    {ref : RangeMap ρ}
    {range : MemRange ρ}
    {obase osize : Nat}
    (hRef : Apart 0 ref.ranges)
    (hRange : range.Valid)
    (h : mapOverlaps ref range = some (obase, osize)) :
    range.addrs ∩ ref.covered =
      Set.Ico obase (obase + osize) ∪
        ((rangeAbove range obase osize).addrs ∩
          ref.covered) := by
  rcases mapOverlaps_eq_some hRef hRange h with
    ⟨hPos, hLow, hEnd, hPart⟩
  rcases rangeAbove_extent hRange hEnd with ⟨hBase, hSize⟩
  ext a
  simp only [Set.mem_union, Set.mem_inter_iff, Set.mem_Ico,
    MemRange.mem_addrs, hBase, hSize]
  constructor
  · intro hCase
    rcases hCase with ⟨ha, hMem⟩
    by_cases hLt : a < obase + osize
    · exact .inl ⟨(hPart a ha.1 hLt).mp hMem, hLt⟩
    · exact .inr ⟨by omega, hMem⟩
  · intro hCase
    rcases hCase with ha | ⟨ha, hMem⟩
    · exact ⟨by omega,
        (hPart a (by omega) ha.2).mpr ha.1⟩
    · exact ⟨by omega, hMem⟩

/- What a reference map leaves of a range, split. -/
theorem addrs_diff_split
    {ref : RangeMap ρ}
    {range : MemRange ρ}
    {obase osize : Nat}
    (hRef : Apart 0 ref.ranges)
    (hRange : range.Valid)
    (h : mapOverlaps ref range = some (obase, osize)) :
    range.addrs \ ref.covered =
      Set.Ico range.base obase ∪
        ((rangeAbove range obase osize).addrs \
          ref.covered) := by
  rcases mapOverlaps_eq_some hRef hRange h with
    ⟨hPos, hLow, hEnd, hPart⟩
  rcases rangeAbove_extent hRange hEnd with ⟨hBase, hSize⟩
  ext a
  simp only [Set.mem_union, Set.mem_sdiff, Set.mem_Ico,
    MemRange.mem_addrs, hBase, hSize]
  constructor
  · intro hCase
    rcases hCase with ⟨ha, hMem⟩
    by_cases hLt : a < obase + osize
    · rw [hPart a ha.1 hLt] at hMem
      exact .inl ⟨ha.1, by omega⟩
    · exact .inr ⟨by omega, hMem⟩
  · intro hCase
    rcases hCase with ha | ⟨ha, hMem⟩
    · refine ⟨by omega, ?_⟩
      rw [hPart a ha.1 (by omega)]
      omega
    · exact ⟨by omega, hMem⟩

/- A range of no bytes has no addresses. -/
theorem addrs_of_size_zero
    {range : MemRange ρ}
    (h : range.size = 0) :
    range.addrs = ∅ := by
  ext a
  rw [MemRange.mem_addrs]
  simp only [Set.mem_empty_iff_false, iff_false]
  omega

------------------------------------------------------------
-- Pieces
------------------------------------------------------------

/- Ranges with one record that cover given addresses. -/
structure Pieces
    (obj : Option ρ)
    (bytes : Set Nat)
    (pieces : List (MemRange ρ)) : Prop where
  record : ∀ p ∈ pieces, p.record = obj
  covered : covered pieces = bytes

theorem Pieces.nil
    {obj : Option ρ}
    {bytes : Set Nat}
    (hNone : bytes = ∅) :
    Pieces obj bytes [] := by
  refine ⟨by simp, ?_⟩
  rw [covered_nil, hNone]

theorem Pieces.single
    (base size : Nat)
    (obj : Option ρ) :
    Pieces obj (Set.Ico base (base + size))
      [newNode base size obj] := by
  constructor
  · intro p hp
    rw [List.mem_singleton] at hp
    rw [hp]
    rfl
  · rw [covered_cons, covered_nil, Set.union_empty]
    rfl

theorem Pieces.append
    {obj : Option ρ}
    {bytes more : Set Nat}
    {pieces rest : List (MemRange ρ)}
    (h : Pieces obj bytes pieces)
    (hRest : Pieces obj more rest) :
    Pieces obj (bytes ∪ more) (pieces ++ rest) := by
  constructor
  · intro p hp
    rcases List.mem_append.mp hp with hp | hp
    · exact h.record p hp
    · exact hRest.record p hp
  · rw [covered_append, h.covered, hRest.covered]

/-
  Parts of ranges: they cover what the ranges cover of a
  set, each inside one of the ranges and with its record.
-/
structure PartsOf
    (ranges : List (MemRange ρ))
    (keep : Set Nat)
    (parts : List (MemRange ρ)) : Prop where
  covered : covered parts = covered ranges ∩ keep
  inside : ∀ p ∈ parts, ∃ r ∈ ranges,
    p.addrs ⊆ r.addrs ∧ p.record = r.record

/- The parts of one more range come first. -/
theorem PartsOf.cons
    {ranges parts pieces : List (MemRange ρ)}
    {keep : Set Nat}
    {r : MemRange ρ}
    (hPieces : Pieces r.record (r.addrs ∩ keep) pieces)
    (hParts : PartsOf ranges keep parts) :
    PartsOf (r :: ranges) keep (pieces ++ parts) := by
  constructor
  · rw [covered_append, hPieces.covered, hParts.covered,
      covered_cons, Set.union_inter_distrib_right]
  · intro p hp
    rcases List.mem_append.mp hp with hp | hp
    · refine ⟨r, List.mem_cons_self, ?_, hPieces.record p hp⟩
      intro a ha
      have hMem : a ∈ Cbop.covered pieces := ⟨p, hp, ha⟩
      rw [hPieces.covered] at hMem
      exact hMem.1
    · rcases hParts.inside p hp with ⟨s, hs, hInside⟩
      exact ⟨s, List.mem_cons_of_mem r hs, hInside⟩

/- A step of the outer loops, on one range. -/
structure AddsPieces
    (keep : Set Nat)
    (r : MemRange ρ)
    (acc acc' : RangeMap ρ) : Prop where
  well : acc'.WellFormed
  pieces : ∃ pieces,
    acc'.ranges = acc.ranges ++ pieces ∧
      Pieces r.record (r.addrs ∩ keep) pieces

/-
  The outer loops, over ranges in address order: a step that
  adds pieces of its range to a map that ends below it.
-/
theorem foldlM_pieces
    {f : RangeMap ρ → MemRange ρ → Option (RangeMap ρ)}
    (keep : Set Nat)
    (ranges : List (MemRange ρ))
    (acc : RangeMap ρ)
    (hApart : Apart 1 ranges)
    (hAcc : acc.WellFormed)
    (hBelow : ∀ p ∈ acc.ranges, ∀ r ∈ ranges,
      p.base + p.size < r.base)
    (hStep : ∀ acc, ∀ r ∈ ranges, acc.WellFormed →
      (∀ p ∈ acc.ranges, p.base + p.size < r.base) →
        ∃ next, f acc r = some next ∧
          AddsPieces keep r acc next) :
    ∃ acc' parts, ranges.foldlM f acc = some acc' ∧
      acc'.WellFormed ∧
      acc'.ranges = acc.ranges ++ parts ∧
      PartsOf ranges keep parts := by
  induction ranges generalizing acc with
  | nil =>
      refine ⟨acc, [], rfl, hAcc, by simp, ?_, by simp⟩
      rw [covered_nil, Set.empty_inter]
  | cons r rest ih =>
      rw [Apart.cons_iff] at hApart
      rcases hApart with ⟨hR, hRest, hAfter⟩
      rcases hStep acc r List.mem_cons_self hAcc
          (fun p hp => hBelow p hp r List.mem_cons_self) with
        ⟨next, hNext, hAdds⟩
      rcases hAdds.pieces with ⟨pieces, hRanges, hPieces⟩
      have hNextBelow :
          ∀ p ∈ next.ranges, ∀ s ∈ rest,
            p.base + p.size < s.base := by
        intro p hp s hs
        have hValid := hAdds.well.apart.valid p hp
        rw [hRanges] at hp
        rcases List.mem_append.mp hp with hp | hp
        · exact hBelow p hp s (List.mem_cons_of_mem r hs)
        · -- the last byte of a piece is in its range
          have hPos := hValid.pos
          have hLast :
              p.base + p.size - 1 ∈ covered pieces := by
            refine ⟨p, hp, ?_⟩
            rw [MemRange.mem_addrs]
            omega
          rw [hPieces.covered, Set.mem_inter_iff,
            MemRange.mem_addrs] at hLast
          have hLe := hAfter s hs
          omega
      have hRestStep := fun acc s hs =>
        hStep acc s (List.mem_cons_of_mem r hs)
      rcases ih next hRest hAdds.well hNextBelow hRestStep with
        ⟨acc', parts, hRet, hWell', hRanges', hParts⟩
      refine ⟨acc', pieces ++ parts, ?_, hWell', ?_,
        .cons hPieces hParts⟩
      · rw [List.foldlM_cons, hNext]
        exact hRet
      · rw [hRanges', hRanges, List.append_assoc]

------------------------------------------------------------
-- Intersection
------------------------------------------------------------

/-
  Where the inner loop may start: past the stored ranges, or
  right after one if the next address is not covered.
-/
def StartsClear
    (ref acc : RangeMap ρ)
    (start : Nat) : Prop :=
  ∀ p ∈ acc.ranges, p.base + p.size ≤ start ∧
    (p.base + p.size = start → start ∉ ref.covered)

/- Then an overlap found leaves a gap to what is stored. -/
theorem StartsClear.gap
    {ref acc : RangeMap ρ}
    {range : MemRange ρ}
    {obase osize : Nat}
    (h : StartsClear ref acc range.base)
    (hRef : Apart 0 ref.ranges)
    (hRange : range.Valid)
    (hFound : mapOverlaps ref range = some (obase, osize)) :
    ∀ p ∈ acc.ranges, p.base + p.size < obase := by
  rcases mapOverlaps_eq_some hRef hRange hFound with
    ⟨hPos, hLow, _, hPart⟩
  intro p hp
  rcases h p hp with ⟨hLe, hGap⟩
  by_contra hNot
  -- the range would start with a covered address
  have hEq : obase = range.base := by omega
  have hIn : range.base ∈ ref.covered :=
    (hPart range.base (by omega) (by omega)).mpr (by omega)
  exact hGap (by omega) hIn

/- And the loop may go on after the overlap is stored. -/
theorem StartsClear.next
    {ref acc next : RangeMap ρ}
    {range : MemRange ρ}
    {obase osize : Nat}
    (hRef : Apart 1 ref.ranges)
    (hRange : range.Valid)
    (hFound : mapOverlaps ref range = some (obase, osize))
    (hInside : obase + osize < range.base + range.size)
    (hBefore : ∀ p ∈ acc.ranges, p.base + p.size < obase)
    (hNext : next.ranges =
      acc.ranges ++ [newNode obase osize range.record]) :
    StartsClear ref next (obase + osize) := by
  have hClear :=
    notMem_end_of_mapOverlaps hRef hRange hFound hInside
  intro p hp
  refine ⟨?_, fun _ => hClear⟩
  rw [hNext, List.mem_append, List.mem_singleton] at hp
  rcases hp with hp | rfl
  · have hLt := hBefore p hp
    omega
  · exact Nat.le_refl _

/- The inner loop adds the covered part of the range. -/
theorem intersectRange_spec
    {ref : RangeMap ρ}
    (hRef : Apart 1 ref.ranges)
    (fuel : Nat)
    (range : MemRange ρ)
    (acc : RangeMap ρ)
    (hFuel : range.size < fuel)
    (hRange : range.Valid)
    (hAcc : acc.WellFormed)
    (hStart : StartsClear ref acc range.base) :
    ∃ acc', intersectRange ref fuel range acc = some acc' ∧
      AddsPieces ref.covered range acc acc' := by
  induction fuel generalizing range acc with
  | zero => omega
  | succ fuel ih =>
      have hRef' := hRef.mono (Nat.zero_le 1)
      unfold intersectRange
      cases hFound : mapOverlaps ref range with
      | none =>
          have hNone : range.addrs ∩ ref.covered = ∅ := by
            rw [← Set.disjoint_iff_inter_eq_empty,
              Set.disjoint_left]
            exact notMem_of_mapOverlaps hRef' hRange hFound
          exact ⟨acc, rfl, hAcc, [], by simp, .nil hNone⟩
      | some found =>
          rcases found with ⟨obase, osize⟩
          rcases mapOverlaps_eq_some hRef' hRange hFound with
            ⟨hPos, hLow, hEnd, -⟩
          rcases rangeAbove_extent hRange hEnd with
            ⟨hNextBase, hNextSize⟩
          have hFits := hRange.fits
          have hAddFits : obase + osize < 2 ^ 64 := by omega
          have hGap := hStart.gap hRef' hRange hFound
          rcases mapAddRange_append range.record hAcc hPos
              hAddFits hGap with
            ⟨hWell, hAdd⟩
          have hSplit := addrs_inter_split hRef' hRange hFound
          change ∃ acc',
            (if (rangeAbove range obase osize).size = 0 then
                some (mapAddRange acc obase osize
                  range.record)
              else
                intersectRange ref fuel
                  (rangeAbove range obase osize)
                  (mapAddRange acc obase osize
                    range.record)) = some acc' ∧ _
          split
          · rename_i hDone
            rw [addrs_of_size_zero hDone, Set.empty_inter,
              Set.union_empty] at hSplit
            refine ⟨_, rfl, hWell, _, hAdd, ?_⟩
            rw [hSplit]
            exact .single obase osize range.record
          · rename_i hMore
            have hNext := StartsClear.next hRef hRange hFound
              (by omega) hGap hAdd
            rw [← hNextBase] at hNext
            rcases ih (rangeAbove range obase osize) _
                (by omega) ⟨by omega, by omega⟩ hWell
                hNext with
              ⟨acc', hRet, hWell', pieces, hRanges', hPieces⟩
            refine ⟨acc', hRet, hWell',
              [newNode obase osize range.record] ++ pieces,
              ?_, ?_⟩
            · rw [hRanges', hAdd, List.append_assoc]
            · rw [hSplit]
              exact Pieces.append (.single obase osize _)
                hPieces

/-
  `map_intersect` keeps the parts of the base map that the
  reference map covers.
-/
theorem mapIntersect_parts
    {base ref : RangeMap ρ}
    (hBase : base.WellFormed)
    (hRef : Apart 1 ref.ranges) :
    ∃ map, mapIntersect base ref = some map ∧
      map.WellFormed ∧
      PartsOf base.ranges ref.covered map.ranges := by
  unfold mapIntersect
  split
  · rename_i hNil
    rw [BinTree.isNil_iff, ← ranges_eq_nil_iff] at hNil
    refine ⟨base, rfl, hBase, ?_⟩
    rw [hNil]
    exact ⟨by simp, by simp⟩
  rcases mapClear_spec base with ⟨hWell, -⟩
  split
  · rename_i hNil
    rw [BinTree.isNil_iff, ← ranges_eq_nil_iff,
      ← covered_eq_empty_iff hRef] at hNil
    refine ⟨mapClear base, rfl, hWell, ?_⟩
    rw [hNil]
    exact ⟨by simp [RangeMap.ranges, mapClear],
      by simp [RangeMap.ranges, mapClear]⟩
  · rcases foldlM_pieces ref.covered base.ranges
        (mapClear base) hBase.apart hWell
        (by simp [RangeMap.ranges, mapClear]) (by
          intro acc r hr hAcc hBelow
          apply intersectRange_spec hRef (r.size + 1) r acc
            (by omega) (hBase.apart.valid r hr) hAcc
          intro p hp
          have hLt := hBelow p hp
          exact ⟨by omega, by omega⟩) with
      ⟨map, parts, hRet, hMap, hRanges, hParts⟩
    have hAll : map.ranges = parts := hRanges
    rw [← hAll] at hParts
    exact ⟨map, hRet, hMap, hParts⟩

theorem mapIntersect_spec
    {base ref : RangeMap ρ}
    (hBase : base.WellFormed)
    (hRef : ref.WellFormed) :
    ∃ map, mapIntersect base ref = some map ∧
      map.WellFormed ∧
      map.covered = base.covered ∩ ref.covered := by
  rcases mapIntersect_parts hBase hRef.apart with
    ⟨map, hRet, hMap, hParts⟩
  exact ⟨map, hRet, hMap, hParts.covered⟩

/-
  `map_intersect` is set intersection, and what it leaves of
  a range keeps its record.
-/
theorem mapIntersect_inter
    {base ref : RangeMap ρ}
    (hBase : base.WellFormed)
    (hRef : ref.WellFormed) :
    ∃ map, mapIntersect base ref = some map ∧
      map.WellFormed ∧
      (∀ a, a ∈ map.covered ↔
        a ∈ base.covered ∧ a ∈ ref.covered) ∧
      ∀ p ∈ map.ranges, ∃ r ∈ base.ranges,
        p.addrs ⊆ r.addrs ∧ p.record = r.record := by
  rcases mapIntersect_parts hBase hRef.apart with
    ⟨map, hRet, hMap, hParts⟩
  refine ⟨map, hRet, hMap, ?_, hParts.inside⟩
  intro a
  unfold RangeMap.covered
  rw [hParts.covered]
  rfl

/- Two ranges with records, three bytes apart. -/
def recordedRanges : RangeMap Nat where
  isHash := false
  root := .node (.node .nil (newNode 8 4 (some 1)) .nil)
    (newNode 15 6 (some 2)) .nil
  size := 2

/- Three ranges, of which two cut the last of these. -/
def cuttingRanges : RangeMap Nat where
  isHash := false
  root := .node (.node .nil (newNode 6 4 none) .nil)
    (newNode 14 3 none) (.node .nil (newNode 18 2 none) .nil)
  size := 3

theorem mapIntersect_inter_recordedRanges :
    ∃ map, mapIntersect recordedRanges cuttingRanges =
        some map ∧
      map.WellFormed ∧
      (∀ a, a ∈ map.covered ↔
        a ∈ recordedRanges.covered ∧
          a ∈ cuttingRanges.covered) ∧
      ∀ p ∈ map.ranges, ∃ r ∈ recordedRanges.ranges,
        p.addrs ⊆ r.addrs ∧ p.record = r.record :=
  mapIntersect_inter (by decide) (by decide)

------------------------------------------------------------
-- Difference
------------------------------------------------------------

/- The part of a range below an overlap, if there is one. -/
theorem addBelow_spec
    {acc : RangeMap ρ}
    (range : MemRange ρ)
    {obase : Nat}
    (hAcc : acc.WellFormed)
    (hFits : obase < 2 ^ 64)
    (hLow : range.base ≤ obase)
    (hBelow : ∀ p ∈ acc.ranges,
      p.base + p.size < range.base) :
    ∃ pieces next,
      next =
        (if obase > range.base then
          mapAddRange acc range.base
            (addrSub obase range.base) range.record
        else
          acc) ∧
      next.WellFormed ∧
      next.ranges = acc.ranges ++ pieces ∧
      Pieces range.record (Set.Ico range.base obase) pieces ∧
      ∀ p ∈ next.ranges, p.base + p.size ≤ obase := by
  by_cases hGt : obase > range.base
  · have hSub :
        addrSub obase range.base = obase - range.base :=
      addrSub_of_le hLow hFits
    have hEq :
        range.base + (obase - range.base) = obase := by
      omega
    rcases mapAddRange_append range.record hAcc
        (Nat.sub_pos_of_lt hGt) (by omega) hBelow with
      ⟨hWell, hAdd⟩
    refine ⟨[newNode range.base (obase - range.base)
      range.record], _, rfl, ?_⟩
    rw [if_pos hGt, hSub]
    refine ⟨hWell, hAdd, ?_, ?_⟩
    · have hOne := Pieces.single range.base
        (obase - range.base) range.record
      rw [hEq] at hOne
      exact hOne
    · intro p hp
      rw [hAdd, List.mem_append, List.mem_singleton] at hp
      rcases hp with hp | rfl
      · have hLt := hBelow p hp
        omega
      · exact Nat.le_of_eq hEq
  · refine ⟨[], _, rfl, ?_⟩
    rw [if_neg hGt]
    refine ⟨hAcc, by simp, .nil ?_, ?_⟩
    · exact Set.Ico_eq_empty (by omega)
    · intro p hp
      have hLt := hBelow p hp
      omega

/- The inner loop adds the part that is not covered. -/
theorem subtractRange_spec
    {copy : RangeMap ρ}
    (hCopy : Apart 0 copy.ranges)
    (fuel : Nat)
    (range : MemRange ρ)
    (acc : RangeMap ρ)
    (hFuel : range.size < fuel)
    (hRange : range.Valid)
    (hAcc : acc.WellFormed)
    (hBelow : ∀ p ∈ acc.ranges,
      p.base + p.size < range.base) :
    ∃ acc', subtractRange copy fuel range acc = some acc' ∧
      AddsPieces copy.coveredᶜ range acc acc' := by
  induction fuel generalizing range acc with
  | zero => omega
  | succ fuel ih =>
      unfold subtractRange
      have hFits := hRange.fits
      have hPos := hRange.pos
      cases hFound : mapOverlaps copy range with
      | none =>
          have hAll :
              range.addrs ∩ copy.coveredᶜ = range.addrs := by
            rw [Set.inter_eq_left]
            exact notMem_of_mapOverlaps hCopy hRange hFound
          have hSize : range.size ≠ 0 := by omega
          simp only [hSize, if_false]
          rcases mapAddRange_append range.record hAcc hPos
              hFits hBelow with
            ⟨hWell, hAdd⟩
          refine ⟨_, rfl, hWell, _, hAdd, ?_⟩
          rw [hAll]
          exact .single range.base range.size range.record
      | some found =>
          rcases found with ⟨obase, osize⟩
          rcases mapOverlaps_eq_some hCopy hRange hFound with
            ⟨hOPos, hLow, hEnd, -⟩
          rcases rangeAbove_extent hRange hEnd with
            ⟨hNextBase, hNextSize⟩
          have hOFits : obase < 2 ^ 64 := by omega
          rcases addBelow_spec range hAcc hOFits hLow
              hBelow with
            ⟨first, next, hNext, hWell, hRanges, hFirst,
              hEnds⟩
          have hSplit := addrs_diff_split hCopy hRange hFound
          rw [Set.sdiff_eq, Set.sdiff_eq] at hSplit
          simp only [← hNext]
          change ∃ acc',
            (if (rangeAbove range obase osize).size = 0 then
                some next
              else
                subtractRange copy fuel
                  (rangeAbove range obase osize) next) =
              some acc' ∧ _
          split
          · rename_i hDone
            rw [addrs_of_size_zero hDone, Set.empty_inter,
              Set.union_empty] at hSplit
            refine ⟨next, rfl, hWell, first, hRanges, ?_⟩
            rw [hSplit]
            exact hFirst
          · rename_i hMore
            rcases ih (rangeAbove range obase osize) next
                (by omega) ⟨by omega, by omega⟩ hWell (by
                  intro p hp
                  have hLe := hEnds p hp
                  omega) with
              ⟨acc', hRet, hWell', pieces, hRanges', hPieces⟩
            refine ⟨acc', hRet, hWell', first ++ pieces,
              ?_, ?_⟩
            · rw [hRanges', hRanges, List.append_assoc]
            · rw [hSplit]
              exact hFirst.append hPieces

/-
  `map_subtract` keeps the parts of the base map that the
  reference map does not cover.
-/
theorem mapSubtract_parts
    {base ref : RangeMap ρ}
    (hBase : base.WellFormed)
    (hRef : ref.WellFormed) :
    ∃ map, mapSubtract base ref = some map ∧
      map.WellFormed ∧
      PartsOf base.ranges ref.coveredᶜ map.ranges := by
  unfold mapSubtract
  split
  · rename_i hNil
    rw [BinTree.isNil_iff, ← ranges_eq_nil_iff,
      ← covered_eq_empty_iff hRef.apart] at hNil
    refine ⟨base, rfl, hBase, ?_, ?_⟩
    · rw [hNil, Set.compl_empty, Set.inter_univ]
    · intro p hp
      exact ⟨p, hp, Set.Subset.refl _, rfl⟩
  split
  · rename_i hNil
    rw [BinTree.isNil_iff, ← ranges_eq_nil_iff] at hNil
    refine ⟨base, rfl, hBase, ?_⟩
    rw [hNil]
    exact ⟨by simp, by simp⟩
  · rcases mapIntersect_spec (mapClone_spec hBase).1 hRef with
      ⟨copy, hCopy, hCopyWell, hCopied⟩
    rw [covered_mapClone hBase] at hCopied
    rcases mapClear_spec base with ⟨hWell, -⟩
    rcases foldlM_pieces copy.coveredᶜ base.ranges
        (mapClear base) hBase.apart hWell
        (by simp [RangeMap.ranges, mapClear]) (by
          intro acc r hr hAcc hBelow
          exact subtractRange_spec
            (hCopyWell.apart.mono (by omega)) (r.size + 1) r
            acc (by omega) (hBase.apart.valid r hr) hAcc
            hBelow) with
      ⟨map, parts, hRet, hMap, hRanges, hParts⟩
    have hAll : map.ranges = parts := hRanges
    rw [← hAll] at hParts
    refine ⟨map, ?_, hMap, ?_, hParts.inside⟩
    · change (mapIntersect (mapClone base) ref >>= _) = _
      rw [hCopy]
      exact hRet
    · rw [hParts.covered, hCopied, Set.compl_inter]
      change base.covered ∩ _ = base.covered ∩ _
      rw [Set.inter_union_distrib_left, Set.inter_compl_self,
        Set.empty_union]

theorem mapSubtract_spec
    {base ref : RangeMap ρ}
    (hBase : base.WellFormed)
    (hRef : ref.WellFormed) :
    ∃ map, mapSubtract base ref = some map ∧
      map.WellFormed ∧
      map.covered = base.covered \ ref.covered := by
  rcases mapSubtract_parts hBase hRef with
    ⟨map, hRet, hMap, hParts⟩
  exact ⟨map, hRet, hMap, hParts.covered⟩

/-
  `map_subtract` is set difference, and what it leaves of a
  range keeps its record.
-/
theorem mapSubtract_diff
    {base ref : RangeMap ρ}
    (hBase : base.WellFormed)
    (hRef : ref.WellFormed) :
    ∃ map, mapSubtract base ref = some map ∧
      map.WellFormed ∧
      (∀ a, a ∈ map.covered ↔
        a ∈ base.covered ∧ a ∉ ref.covered) ∧
      ∀ p ∈ map.ranges, ∃ r ∈ base.ranges,
        p.addrs ⊆ r.addrs ∧ p.record = r.record := by
  rcases mapSubtract_parts hBase hRef with
    ⟨map, hRet, hMap, hParts⟩
  refine ⟨map, hRet, hMap, ?_, hParts.inside⟩
  intro a
  unfold RangeMap.covered
  rw [hParts.covered]
  rfl

theorem mapSubtract_diff_recordedRanges :
    ∃ map, mapSubtract recordedRanges cuttingRanges =
        some map ∧
      map.WellFormed ∧
      (∀ a, a ∈ map.covered ↔
        a ∈ recordedRanges.covered ∧
          a ∉ cuttingRanges.covered) ∧
      ∀ p ∈ map.ranges, ∃ r ∈ recordedRanges.ranges,
        p.addrs ⊆ r.addrs ∧ p.record = r.record :=
  mapSubtract_diff (by decide) (by decide)

end Cbop
