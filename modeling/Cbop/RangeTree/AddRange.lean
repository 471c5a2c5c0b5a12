import Cbop.RangeTree.WellFormed

/-
  What `map_add_range` does to a well-formed map.

  A splay at the base of the new range leaves its
  predecessor or its successor at the root. The result is
  always well formed. It covers the old addresses and the
  new range except in one case: the new range lies strictly
  inside a stored range and the splay leaves the successor
  of that range at the root. Then `absorb_left` keeps the
  end of the new range and drops the tail of the stored one.

  Main declarations:
    * `absorbLeft_spec`, `absorbRight_spec`
    * `mapAddRange_spec`
    * `RootHolds`
    * `AddReachable`
    * `mapAddRange_covered_iff`
-/

namespace Cbop

variable {ρ : Type}

------------------------------------------------------------
-- Absorption on the Left
------------------------------------------------------------

/- The range with its base moved down and its end kept. -/
def MemRange.downTo
    (r : MemRange ρ)
    (low : Nat) :
    MemRange ρ :=
  { r with base := low, size := r.base + r.size - low }

theorem MemRange.downTo_end
    {r : MemRange ρ}
    {low : Nat}
    (h : low ≤ r.base) :
    low + (r.downTo low).size = r.base + r.size := by
  change low + (r.base + r.size - low) = _
  omega

theorem MemRange.Valid.downTo
    {r : MemRange ρ}
    {low : Nat}
    (hR : r.Valid)
    (h : low ≤ r.base) :
    (r.downTo low).Valid := by
  have hEnd := MemRange.downTo_end h
  have hPos := hR.pos
  have hFits := hR.fits
  refine ⟨by omega, ?_⟩
  change low + (r.downTo low).size < 2 ^ 64
  omega

/- Ranges that end before the range are left alone. -/
theorem absorbLeft_of_before
    (t : RangeNode ρ)
    (range : MemRange ρ)
    (size : Nat)
    (hValid : ∀ r ∈ t.toList, r.Valid)
    (hBefore :
      ∀ r ∈ t.toList, r.base + r.size < range.base) :
    absorbLeft t range size = (t, range, size) := by
  induction t with
  | nil => rfl
  | node lc r rc ihl ihr =>
      have hBound : r.bound = r.base + r.size :=
        (hValid r (by simp)).bound_eq
      have hGt : range.base > r.bound := by
        rw [hBound]
        exact hBefore r (by simp)
      have hRest :
          absorbLeft rc range size = (rc, range, size) := by
        apply ihr
        · intro s hs
          exact hValid s (by simp [hs])
        · intro s hs
          exact hBefore s (by simp [hs])
      simp only [absorbLeft, hGt, if_true, hRest]

/-
  A last range that reaches the range is absorbed: the range
  takes over its base and keeps its own end.
-/
theorem absorbLeft_of_reaches
    (t : RangeNode ρ)
    (range : MemRange ρ)
    (size : Nat)
    (front : List (MemRange ρ))
    (last : MemRange ρ)
    (hList : t.toList = front ++ [last])
    (hApart : Apart 1 t.toList)
    (hBelow : last.base < range.base)
    (hReach : range.base ≤ last.base + last.size)
    (hFits : range.base + range.size < 2 ^ 64) :
    ∃ t',
      absorbLeft t range size =
        (t', range.downTo last.base, size - 1) ∧
      t'.toList = front := by
  induction t generalizing front with
  | nil => simp at hList
  | node lc r rc ihl ihr =>
      rw [BinTree.toList_node] at hList hApart
      cases rc with
      | nil =>
          rw [BinTree.toList_nil] at hList hApart
          have hParts := List.append_inj' hList rfl
          have hLast : r = last := by simpa using hParts.2
          subst hLast
          rw [Apart.split_iff] at hApart
          rcases hApart with ⟨hLc, hR, _, hBefore, _⟩
          have hNot : ¬ range.base > r.bound := by
            rw [hR.bound_eq]
            omega
          have hMin : min r.base range.base = r.base := by
            omega
          have hBound :
              range.bound = range.base + range.size :=
            addrAdd_of_lt hFits
          have hSub :
              addrSub range.bound r.base =
                range.base + range.size - r.base := by
            rw [hBound]
            exact addrSub_of_le (by omega) hFits
          refine ⟨lc, ?_, hParts.1⟩
          simp only [absorbLeft, hNot, if_false, hMin,
            hSub, freeSubtree]
          apply absorbLeft_of_before
          · exact hLc.valid
          · intro s hs
            have := hBefore s hs
            change s.base + s.size < r.base
            omega
      | node rlc rr rrc =>
          -- the last range is in the right subtree
          have hSplit := hApart
          rw [Apart.split_iff] at hSplit
          rcases hSplit with ⟨_, hR, hRight, _, hAfter⟩
          have hNonempty :
              (BinTree.node rlc rr rrc).toList ≠ [] := by
            simp
          rcases List.eq_nil_or_concat
              (BinTree.node rlc rr rrc).toList with
            hNil | ⟨rest, final, hConcat⟩
          · exact absurd hNil hNonempty
          · rw [List.concat_eq_append] at hConcat
            rw [hConcat, ← List.cons_append,
              ← List.append_assoc] at hList
            have hParts := List.append_inj' hList rfl
            have hFinal : final = last := by
              simpa using hParts.2
            subst hFinal
            have hLt : r.base + r.size + 1 ≤ final.base :=
              hAfter final (by rw [hConcat]; simp)
            have hGt : range.base > r.bound := by
              rw [hR.bound_eq]
              omega
            rcases ihr rest hConcat hRight with
              ⟨t', hEq, hRest⟩
            refine ⟨.node lc r t', ?_, ?_⟩
            · rw [absorbLeft.eq_2]
              simp only [hGt, if_true, hEq]
            · rw [BinTree.toList_node, hRest]
              exact hParts.1

/-
  Both outcomes of `absorb_left` on ranges based below the
  new one: nothing reaches it, or the last one does.
-/
theorem absorbLeft_spec
    (t : RangeNode ρ)
    (range : MemRange ρ)
    (size : Nat)
    (hApart : Apart 1 t.toList)
    (hBelow : ∀ r ∈ t.toList, r.base < range.base)
    (hFits : range.base + range.size < 2 ^ 64) :
    (absorbLeft t range size = (t, range, size) ∧
      ∀ r ∈ t.toList, r.base + r.size < range.base) ∨
    (∃ front last t',
      t.toList = front ++ [last] ∧
      range.base ≤ last.base + last.size ∧
      absorbLeft t range size =
        (t', range.downTo last.base, size - 1) ∧
      t'.toList = front) := by
  rcases List.eq_nil_or_concat t.toList with
    hNil | ⟨front, last, hConcat⟩
  · left
    have hNone : ∀ r ∈ t.toList, False := by
      simp [hNil]
    exact ⟨absorbLeft_of_before t range size hApart.valid
        (fun r hr => (hNone r hr).elim),
      fun r hr => (hNone r hr).elim⟩
  · rw [List.concat_eq_append] at hConcat
    by_cases hReach : range.base ≤ last.base + last.size
    · right
      rcases absorbLeft_of_reaches t range size front last
          hConcat hApart
          (hBelow last (by rw [hConcat]; simp)) hReach
          hFits with
        ⟨t', hEq, hFront⟩
      exact ⟨front, last, t', hConcat, hReach, hEq, hFront⟩
    · left
      have hBefore :
          ∀ r ∈ t.toList,
            r.base + r.size < range.base := by
        have hSplit := hApart
        rw [hConcat, Apart.split_iff] at hSplit
        intro r hr
        rw [hConcat] at hr
        rcases List.mem_append.mp hr with hr | hr
        · have hLe := hSplit.2.2.2.1 r hr
          have hPos := hSplit.2.1.pos
          omega
        · rw [List.mem_singleton] at hr
          subst hr
          omega
      exact ⟨absorbLeft_of_before t range size
          hApart.valid hBefore, hBefore⟩

------------------------------------------------------------
-- Absorption on the Right
------------------------------------------------------------

/-
  `absorb_right` takes a run of ranges off the front of the
  right subtree. The new end is the old one or the end of an
  absorbed range that the old one reached.
-/
theorem absorbRight_spec
    (t : RangeNode ρ)
    (range : MemRange ρ)
    (size : Nat)
    (hApart : Apart 1 t.toList)
    (hAbove : ∀ r ∈ t.toList, range.base ≤ r.base)
    (hFits : range.base + range.size < 2 ^ 64) :
    ∃ t' taken stop,
      absorbRight t range size =
        (t', { range with size := stop - range.base },
          size - taken.length) ∧
      t.toList = taken ++ t'.toList ∧
      range.base + range.size ≤ stop ∧
      stop < 2 ^ 64 ∧
      (∀ r ∈ taken, r.base + r.size ≤ stop) ∧
      (∀ r ∈ t'.toList, stop < r.base) ∧
      (stop = range.base + range.size ∨
        ∃ r ∈ taken,
          r.base ≤ range.base + range.size ∧
          stop = r.base + r.size) := by
  induction t generalizing range size with
  | nil =>
      refine ⟨.nil, [], range.base + range.size, ?_,
        rfl, le_refl _, hFits, by simp, by simp,
        Or.inl rfl⟩
      simp [absorbRight]
  | node lc r rc ihl ihr =>
      rw [BinTree.toList_node] at hApart hAbove
      have hSplit := hApart
      rw [Apart.split_iff] at hSplit
      rcases hSplit with
        ⟨hLc, hR, hRc, hBefore, hAfter⟩
      have hRange :
          range.bound = range.base + range.size :=
        addrAdd_of_lt hFits
      have hRFits := hR.fits
      have hRPos := hR.pos
      by_cases hLt : range.bound < r.base
      · -- the node stays, only its left subtree is visited
        rcases ihl range size hLc
            (fun s hs => hAbove s (by simp [hs])) hFits with
          ⟨lc', taken, stop, hEq, hList, hLe, hStop,
            hTaken, hRest, hEnd⟩
        have hStopR : stop < r.base := by
          rcases hEnd with hEnd | ⟨s, hs, _, hEnd⟩
          · omega
          · have := hBefore s (by rw [hList]; simp [hs])
            omega
        refine ⟨.node lc' r rc, taken, stop, ?_, ?_, hLe,
          hStop, hTaken, ?_, hEnd⟩
        · rw [absorbRight.eq_2]
          simp only [hLt, if_true, hEq]
        · simp [hList]
        · intro s hs
          rw [BinTree.toList_node] at hs
          rcases List.mem_append.mp hs with hs | hs
          · exact hRest s hs
          · rcases List.mem_cons.mp hs with rfl | hs
            · exact hStopR
            · have := hAfter s hs
              omega
      · -- the node and its left subtree are absorbed
        have hRBound := hR.bound_eq
        have hRBase : range.base ≤ r.base :=
          hAbove r (by simp)
        have hSub :
            addrSub (max range.bound r.bound) range.base =
              max (range.base + range.size)
                (r.base + r.size) - range.base := by
          rw [hRange, hRBound]
          exact addrSub_of_le (by omega) (by omega)
        have hSum :
            range.base +
                (max (range.base + range.size)
                  (r.base + r.size) - range.base) =
              max (range.base + range.size)
                (r.base + r.size) := by
          omega
        rcases ihr
            { range with
              size :=
                max (range.base + range.size)
                  (r.base + r.size) - range.base }
            (size - (lc.toList.length + 1)) hRc
            (by
              intro s hs
              have := hAfter s hs
              change range.base ≤ s.base
              omega)
            (by
              change range.base + _ < _
              rw [hSum]
              omega) with
          ⟨t', taken, stop, hEq, hList, hLe, hStop,
            hTaken, hRest, hEnd⟩
        simp only [hSum] at hLe hEnd
        refine ⟨t', lc.toList ++ r :: taken, stop, ?_, ?_,
          by omega, hStop, ?_, hRest, ?_⟩
        · rw [absorbRight.eq_2]
          have hFreed :
              freeSubtree (.node lc r .nil) size =
                size - (lc.toList.length + 1) := by
            rw [freeSubtree_eq]
            simp
          simp only [hLt, if_false, hSub, hFreed, hEq,
            List.length_append, List.length_cons]
          congr 2
          omega
        · simp [hList]
        · intro s hs
          rcases List.mem_append.mp hs with hs | hs
          · have := hBefore s hs
            omega
          · rcases List.mem_cons.mp hs with rfl | hs
            · omega
            · exact hTaken s hs
        · rcases hEnd with hEnd | ⟨s, hs, hBase, hEnd⟩
          · by_cases hMax :
                r.base + r.size ≤ range.base + range.size
            · left
              omega
            · right
              exact ⟨r, by simp, by omega, by omega⟩
          · right
            have hAfterS :=
              hAfter s (by rw [hList]; simp [hs])
            exact ⟨s, by simp [hs], by omega, hEnd⟩

/-
  Closing a range that nothing on the left reaches: the
  result is apart and covers the left, the range and the
  whole right subtree.
-/
theorem absorbRight_closes
    (left : List (MemRange ρ))
    (t : RangeNode ρ)
    (range : MemRange ρ)
    (size : Nat)
    (hLeft : Apart 1 left)
    (hBefore :
      ∀ r ∈ left, r.base + r.size < range.base)
    (hApart : Apart 1 t.toList)
    (hAbove : ∀ r ∈ t.toList, range.base ≤ r.base)
    (hRange : range.Valid) :
    ∃ t' range' gone,
      absorbRight t range size =
        (t', range', size - gone) ∧
      Apart 1 (left ++ range' :: t'.toList) ∧
      t.toList.length = gone + t'.toList.length ∧
      covered (left ++ range' :: t'.toList) =
        covered left ∪ range.addrs ∪ covered t.toList := by
  rcases absorbRight_spec t range size hApart hAbove
      hRange.fits with
    ⟨t', taken, stop, hEq, hList, hLe, hStop, hTaken,
      hRest, hEnd⟩
  have hPos := hRange.pos
  refine ⟨t', _, taken.length, hEq, ?_, ?_, ?_⟩
  · rw [Apart.split_iff]
    rw [hList, Apart.append_iff] at hApart
    refine ⟨hLeft, ⟨?_, ?_⟩, hApart.2.1, ?_, ?_⟩
    · change 0 < stop - range.base
      omega
    · change range.base + (stop - range.base) < 2 ^ 64
      omega
    · intro r hr
      exact hBefore r hr
    · intro r hr
      have := hRest r hr
      change range.base + (stop - range.base) + 1 ≤ r.base
      omega
  · rw [hList, List.length_append]
  · have hMid :
        MemRange.addrs
            { range with size := stop - range.base } =
          range.addrs ∪ covered taken := by
      ext a
      rw [Set.mem_union, MemRange.mem_addrs,
        MemRange.mem_addrs, mem_covered]
      constructor
      · intro h
        rcases h with ⟨hLo, hHi⟩
        change range.base ≤ a at hLo
        change a < range.base + (stop - range.base) at hHi
        by_cases hIn : a < range.base + range.size
        · exact Or.inl ⟨hLo, hIn⟩
        · right
          rcases hEnd with hEnd | ⟨r, hr, hBase, hEnd⟩
          · omega
          · refine ⟨r, hr, ?_⟩
            rw [MemRange.mem_addrs]
            omega
      · intro h
        rcases h with ⟨hLo, hHi⟩ | ⟨r, hr, hIn⟩
        · change range.base ≤ a ∧
            a < range.base + (stop - range.base)
          omega
        · rw [MemRange.mem_addrs] at hIn
          have hBase :=
            hAbove r (by rw [hList]; simp [hr])
          have hStopR := hTaken r hr
          change range.base ≤ a ∧
            a < range.base + (stop - range.base)
          omega
    rw [covered_append, covered_cons, hMid, hList,
      covered_append]
    simp only [Set.union_assoc]

------------------------------------------------------------
-- Touching Ranges
------------------------------------------------------------

/- `overlap` finds a common part of two valid ranges. -/
theorem overlap_isSome_iff
    {b r : MemRange ρ}
    (hB : b.Valid)
    (hR : r.Valid) :
    (overlap b r).isSome = true ↔
      b.base < r.base + r.size ∧
        r.base < b.base + b.size := by
  have hBPos := hB.pos
  have hRPos := hR.pos
  unfold overlap
  rw [hB.bound_eq, hR.bound_eq]
  split_ifs <;> simp <;> omega

/- The test of `map_add_range` before it merges. -/
theorem touches_iff
    {n top : MemRange ρ}
    (hN : n.Valid)
    (hTop : top.Valid) :
    ((overlap n top).isSome || bordering n top) = true ↔
      n.base ≤ top.base + top.size ∧
        top.base ≤ n.base + n.size := by
  have hNPos := hN.pos
  have hTopPos := hTop.pos
  unfold bordering
  rw [Bool.or_eq_true, overlap_isSome_iff hN hTop,
    hN.bound_eq, hTop.bound_eq]
  split_ifs <;> rw [decide_eq_true_iff] <;> omega

theorem newNode_valid
    {base size : Nat}
    (obj : Option ρ)
    (hSize : 0 < size)
    (hFits : base + size < 2 ^ 64) :
    (newNode base size obj).Valid :=
  ⟨hSize, hFits⟩

@[simp] theorem addrs_newNode
    (base size : Nat)
    (obj : Option ρ) :
    (newNode base size obj).addrs =
      Set.Ico base (base + size) := rfl

/- The hull of two touching valid ranges. -/
theorem unionRanges_eq
    {n top : MemRange ρ}
    (hN : n.Valid)
    (hTop : top.Valid) :
    unionRanges n top =
      (min n.base top.base,
        max (n.base + n.size) (top.base + top.size) -
          min n.base top.base) := by
  have hNFits := hN.fits
  have hTopFits := hTop.fits
  simp only [unionRanges]
  rw [hN.bound_eq, hTop.bound_eq,
    addrSub_of_le (by omega) (by omega)]

/- The addresses of the hull of two touching ranges. -/
theorem addrs_hull
    {r s range : MemRange ρ}
    (hBelow : r.base ≤ s.base + s.size)
    (hAbove : s.base ≤ r.base + r.size)
    (hBase : range.base = min r.base s.base)
    (hEnd :
      range.base + range.size =
        max (r.base + r.size) (s.base + s.size)) :
    range.addrs = r.addrs ∪ s.addrs := by
  ext a
  rw [Set.mem_union, MemRange.mem_addrs,
    MemRange.mem_addrs, MemRange.mem_addrs]
  omega

------------------------------------------------------------
-- The Branches of Insertion
------------------------------------------------------------

section Branches

variable {map : RangeMap ρ}
variable {base size : Nat}
variable {lc rc : RangeNode ρ}
variable {top : MemRange ρ}

/- The root of the splayed tree and the new range in one. -/
def hull
    (top : MemRange ρ)
    (base size : Nat) :
    MemRange ρ :=
  { top with
    base := min base top.base
    size := max (base + size) (top.base + top.size) -
      min base top.base }

theorem hull_end :
    (hull top base size).base + (hull top base size).size =
      max (base + size) (top.base + top.size) := by
  change min base top.base + (max (base + size)
    (top.base + top.size) - min base top.base) = _
  omega

theorem hull_valid
    (hFits : base + size < 2 ^ 64)
    (hTop : top.Valid) :
    (hull top base size).Valid := by
  have hTopPos := hTop.pos
  have hTopFits := hTop.fits
  constructor
  · change 0 < max (base + size) (top.base + top.size) -
      min base top.base
    omega
  · rw [hull_end]
    omega

/- The new range touches the root: both are merged. -/
theorem mapAddRange_eq_merge
    (obj : Option ρ)
    (hN : (newNode base size obj).Valid)
    (hTop : top.Valid)
    (hSplay : splay map.root base = .node lc top rc)
    (hBelow : base ≤ top.base + top.size)
    (hAbove : top.base ≤ base + size) :
    mapAddRange map base size obj =
      let left :=
        absorbLeft lc (hull top base size) map.size
      let right := absorbRight rc left.2.1 left.2.2
      { map with root := .node left.1 right.2.1 right.1
                 size := right.2.2 } := by
  have hTouch :=
    (touches_iff hN hTop).mpr ⟨hBelow, hAbove⟩
  unfold mapAddRange
  rw [hSplay]
  simp only [unionRanges_eq hN hTop]
  rw [if_pos hTouch]
  rfl

/- The root lies after the new range. -/
theorem mapAddRange_eq_below
    (obj : Option ρ)
    (hN : (newNode base size obj).Valid)
    (hTop : top.Valid)
    (hSplay : splay map.root base = .node lc top rc)
    (hGap : base + size < top.base) :
    mapAddRange map base size obj =
      let left :=
        absorbLeft lc (newNode base size obj) (map.size + 1)
      { map with root := .node left.1 left.2.1
                   (.node .nil top rc)
                 size := left.2.2 } := by
  have hTouch :
      ¬ ((overlap (newNode base size obj) top).isSome ||
          bordering (newNode base size obj) top) = true := by
    rw [touches_iff hN hTop]
    change ¬ (base ≤ _ ∧ top.base ≤ base + size)
    omega
  unfold mapAddRange
  rw [hSplay]
  simp only
  rw [if_neg hTouch, if_pos (by omega)]

/- The root lies before the new range. -/
theorem mapAddRange_eq_above
    (obj : Option ρ)
    (hN : (newNode base size obj).Valid)
    (hTop : top.Valid)
    (hSplay : splay map.root base = .node lc top rc)
    (hGap : top.base + top.size < base) :
    mapAddRange map base size obj =
      let right :=
        absorbRight rc (newNode base size obj) (map.size + 1)
      { map with root := .node (.node lc top .nil) right.2.1
                   right.1
                 size := right.2.2 } := by
  have hTouch :
      ¬ ((overlap (newNode base size obj) top).isSome ||
          bordering (newNode base size obj) top) = true := by
    rw [touches_iff hN hTop]
    change ¬ (base ≤ top.base + top.size ∧ _)
    omega
  unfold mapAddRange
  rw [hSplay]
  simp only
  rw [if_neg hTouch, if_neg (by omega), if_pos (by omega)]

/- Merging with the root is set union. -/
theorem mapAddRange_of_touches
    (obj : Option ρ)
    (hMap : map.WellFormed)
    (hSize : 0 < size)
    (hFits : base + size < 2 ^ 64)
    (hSplay : splay map.root base = .node lc top rc)
    (hList : lc.toList ++ top :: rc.toList = map.ranges)
    (hLc : ∀ r ∈ lc.toList, r.base < base)
    (hRc : ∀ r ∈ rc.toList, base < r.base)
    (hBelow : base ≤ top.base + top.size)
    (hAbove : top.base ≤ base + size) :
    (mapAddRange map base size obj).WellFormed ∧
      (mapAddRange map base size obj).covered =
        map.covered ∪ Set.Ico base (base + size) := by
  have hApart := hMap.apart
  rw [← hList, Apart.split_iff] at hApart
  rcases hApart with
    ⟨hLeft, hTop, hRight, hBefore, hAfter⟩
  have hCount := hMap.size_eq
  rw [← hList, List.length_append,
    List.length_cons] at hCount
  have hValid := hull_valid hFits hTop
  have hBase :
      (hull top base size).base = min base top.base := rfl
  have hHullAddrs :
      (hull top base size).addrs =
        Set.Ico base (base + size) ∪ top.addrs :=
    addrs_hull (r := newNode base size obj)
      hBelow hAbove hBase hull_end
  have hLcHull :
      ∀ r ∈ lc.toList, r.base < (hull top base size).base := by
    intro r hr
    have hR := hLc r hr
    have hRTop := hBefore r hr
    omega
  have hRcHull :
      ∀ r ∈ rc.toList, (hull top base size).base ≤ r.base := by
    intro r hr
    have hR := hRc r hr
    omega
  rw [mapAddRange_eq_merge obj (newNode_valid obj hSize hFits)
    hTop hSplay hBelow hAbove]
  rcases absorbLeft_spec lc (hull top base size) map.size
      hLeft hLcHull hValid.fits with
    ⟨hSame, hFree⟩ | ⟨front, last, lc', hFront, hReach,
      hEq, hFrontList⟩
  · rcases absorbRight_closes lc.toList rc
        (hull top base size) map.size hLeft hFree hRight
        hRcHull hValid with
      ⟨rc', range', gone, hRightEq, hResult, hGone, hCov⟩
    simp only [hSame, hRightEq]
    refine ⟨⟨hResult, ?_⟩, ?_⟩
    · change map.size - gone =
        (lc.toList ++ range' :: rc'.toList).length
      rw [List.length_append, List.length_cons]
      omega
    · change covered (lc.toList ++ range' :: rc'.toList) =
        covered map.ranges ∪ _
      rw [hCov, hHullAddrs, ← hList, covered_append,
        covered_cons]
      ac_rfl
  · -- the last range on the left joins the hull
    have hLastMem : last ∈ lc.toList := by
      rw [hFront]
      simp
    have hLastTop := hBefore last hLastMem
    have hLastLow := Nat.le_of_lt (hLcHull last hLastMem)
    have hGrown :
        ((hull top base size).downTo last.base).addrs =
          last.addrs ∪ (hull top base size).addrs := by
      have hEnd := MemRange.downTo_end hLastLow
      have hHullEnd :
          (hull top base size).base +
              (hull top base size).size =
            max (base + size) (top.base + top.size) :=
        hull_end
      apply addrs_hull
      · omega
      · exact hReach
      · change last.base = _
        omega
      · change last.base + _ = _
        omega
    rw [hFront, Apart.append_iff] at hLeft
    rcases absorbRight_closes front rc
        ((hull top base size).downTo last.base)
        (map.size - 1) hLeft.1
        (fun r hr => hLeft.2.2 r hr last (by simp))
        hRight
        (fun r hr => Nat.le_trans hLastLow (hRcHull r hr))
        (hValid.downTo hLastLow) with
      ⟨rc', range', gone, hRightEq, hResult, hGone, hCov⟩
    rw [← hFrontList] at hResult hCov
    simp only [hEq, hRightEq]
    refine ⟨⟨hResult, ?_⟩, ?_⟩
    · change map.size - 1 - gone =
        (lc'.toList ++ range' :: rc'.toList).length
      rw [hFront, List.length_append,
        List.length_singleton, ← hFrontList] at hCount
      rw [List.length_append, List.length_cons]
      omega
    · change covered (lc'.toList ++ range' :: rc'.toList) =
        covered map.ranges ∪ _
      rw [hCov, hGrown, hHullAddrs, ← hList,
        hFront, hFrontList]
      simp only [covered_append, covered_cons,
        covered_nil, Set.union_empty]
      ac_rfl

/-
  The last range below is absorbed by a new range that keeps
  its own end: nothing is lost exactly if no range that
  starts below ends past it.
-/
theorem covered_absorbed_iff
    (obj : Option ρ)
    {front rest : List (MemRange ρ)}
    {last : MemRange ρ}
    (hApart : Apart 1 (front ++ last :: rest))
    (hLow : last.base < base)
    (hReach : base ≤ last.base + last.size)
    (hRest : ∀ r ∈ rest, base + size < r.base) :
    covered (front ++
        (newNode base size obj).downTo last.base :: rest) =
        covered (front ++ last :: rest) ∪
          Set.Ico base (base + size) ↔
      ∀ p ∈ front ++ last :: rest, p.base < base →
        p.base + p.size ≤ base + size := by
  have hGrownEnd :
      last.base +
          ((newNode base size obj).downTo last.base).size =
        base + size :=
    MemRange.downTo_end (Nat.le_of_lt hLow)
  rw [Apart.split_iff] at hApart
  rcases hApart with ⟨-, -, -, hFront, -⟩
  constructor
  · -- an address past the new end would be lost
    intro hCov p hp hpBase
    by_contra hPast
    have hMem : base + size ∈
        covered (front ++ last :: rest) ∪
          Set.Ico base (base + size) := by
      left
      refine ⟨p, hp, ?_⟩
      rw [MemRange.mem_addrs]
      omega
    rw [← hCov] at hMem
    rcases hMem with ⟨r, hr, hIn⟩
    rw [MemRange.mem_addrs] at hIn
    rw [List.mem_append, List.mem_cons] at hr
    rcases hr with hr | rfl | hr
    · have hBefore := hFront r hr
      omega
    · change last.base ≤ _ ∧ _ < last.base + _ at hIn
      omega
    · have hAfter := hRest r hr
      omega
  · intro hInside
    have hLastEnd := hInside last (by simp) hLow
    have hGrown :
        ((newNode base size obj).downTo last.base).addrs =
          last.addrs ∪ Set.Ico base (base + size) :=
      addrs_hull (s := newNode base size obj)
        (by
          change last.base ≤ base + size
          omega)
        hReach
        (by
          change last.base = min last.base base
          omega)
        (by
          change last.base + _ =
            max (last.base + last.size) (base + size)
          omega)
    simp only [covered_append, covered_cons, hGrown]
    ac_rfl

/-
  The root lies after the new range: the range is inserted
  below it and absorbs on the left.
-/
theorem mapAddRange_of_before
    (obj : Option ρ)
    (hMap : map.WellFormed)
    (hSize : 0 < size)
    (hSplay : splay map.root base = .node lc top rc)
    (hList : lc.toList ++ top :: rc.toList = map.ranges)
    (hLc : ∀ r ∈ lc.toList, r.base < base)
    (hGap : base + size < top.base) :
    (mapAddRange map base size obj).WellFormed ∧
      ((mapAddRange map base size obj).covered =
          map.covered ∪ Set.Ico base (base + size) ↔
        ∀ p ∈ map.ranges, p.base < base →
          p.base + p.size ≤ base + size) := by
  have hApart := hMap.apart
  rw [← hList] at hApart
  have hOld := hApart
  rw [Apart.split_iff] at hApart
  rcases hApart with
    ⟨hLeft, hTop, hRight, hBefore, hAfter⟩
  have hCount := hMap.size_eq
  rw [← hList, List.length_append,
    List.length_cons] at hCount
  have hTopPos := hTop.pos
  have hTopFits := hTop.fits
  have hFits : base + size < 2 ^ 64 := by omega
  have hN := newNode_valid obj hSize hFits
  -- the root and what follows it lie past the new range
  have hPast :
      ∀ r ∈ top :: rc.toList, base + size < r.base := by
    intro r hr
    rcases List.mem_cons.mp hr with rfl | hr
    · exact hGap
    · have hLe := hAfter r hr
      omega
  have hTail : Apart 1 (top :: rc.toList) :=
    Apart.cons_iff.mpr ⟨hTop, hRight, hAfter⟩
  rw [mapAddRange_eq_below obj hN hTop hSplay hGap]
  rcases absorbLeft_spec lc (newNode base size obj)
      (map.size + 1) hLeft hLc hFits with
    ⟨hSame, hFree⟩ | ⟨front, last, lc', hFront, hReach,
      hEq, hFrontList⟩
  · simp only [hSame]
    refine ⟨⟨?_, ?_⟩, ?_⟩
    · exact Apart.split_iff.mpr
        ⟨hLeft, hN, hTail, hFree, hPast⟩
    · change map.size + 1 =
        (lc.toList ++ _ :: top :: rc.toList).length
      rw [List.length_append, List.length_cons,
        List.length_cons]
      omega
    · have hCov :
          covered
              (lc.toList ++ newNode base size obj ::
                top :: rc.toList) =
            covered map.ranges ∪
              Set.Ico base (base + size) := by
        rw [← hList]
        simp only [covered_append, covered_cons,
          addrs_newNode]
        ac_rfl
      refine ⟨fun _ => ?_, fun _ => hCov⟩
      intro p hp hpBase
      rw [← hList, List.mem_append] at hp
      rcases hp with hp | hp
      · have hLt := hFree p hp
        change p.base + p.size < base at hLt
        omega
      · have hLt := hPast p hp
        omega
  · have hLow : last.base < base :=
      hLc last (by rw [hFront]; simp)
    have hRanges :
        map.ranges = front ++ last :: top :: rc.toList := by
      rw [← hList, hFront]
      simp
    rw [hFront, List.append_assoc,
      List.singleton_append] at hOld
    have hParts := Apart.split_iff.mp hOld
    simp only [hEq]
    refine ⟨⟨?_, ?_⟩, ?_⟩
    · change Apart 1 (lc'.toList ++ _ :: top :: rc.toList)
      rw [hFrontList]
      refine Apart.split_iff.mpr ⟨hParts.1,
        hN.downTo (Nat.le_of_lt hLow), hTail,
        hParts.2.2.2.1, ?_⟩
      intro r hr
      have hLt := hPast r hr
      have hEnd :=
        MemRange.downTo_end (r := newNode base size obj)
          (Nat.le_of_lt hLow)
      change last.base + _ = base + size at hEnd
      change last.base + _ + 1 ≤ r.base
      omega
    · change map.size + 1 - 1 =
        (lc'.toList ++ _ :: top :: rc.toList).length
      rw [hFrontList]
      rw [hFront, List.length_append,
        List.length_singleton] at hCount
      rw [List.length_append, List.length_cons,
        List.length_cons]
      omega
    · change covered
          (lc'.toList ++ _ :: top :: rc.toList) =
          covered map.ranges ∪ _ ↔ _
      rw [hFrontList, hRanges]
      exact covered_absorbed_iff obj hOld hLow hReach hPast

/-
  The root lies before the new range: the range is inserted
  above it and absorbs on the right.
-/
theorem mapAddRange_of_after
    (obj : Option ρ)
    (hMap : map.WellFormed)
    (hSize : 0 < size)
    (hFits : base + size < 2 ^ 64)
    (hSplay : splay map.root base = .node lc top rc)
    (hList : lc.toList ++ top :: rc.toList = map.ranges)
    (hRc : ∀ r ∈ rc.toList, base < r.base)
    (hGap : top.base + top.size < base) :
    (mapAddRange map base size obj).WellFormed ∧
      (mapAddRange map base size obj).covered =
        map.covered ∪ Set.Ico base (base + size) := by
  have hApart := hMap.apart
  rw [← hList, Apart.split_iff] at hApart
  rcases hApart with
    ⟨hLeft, hTop, hRight, hBefore, hAfter⟩
  have hCount := hMap.size_eq
  rw [← hList, List.length_append,
    List.length_cons] at hCount
  have hN := newNode_valid obj hSize hFits
  have hLeftTop : Apart 1 (lc.toList ++ [top]) := by
    rw [Apart.split_iff]
    exact ⟨hLeft, hTop, Apart.nil, hBefore, by simp⟩
  have hLower :
      ∀ r ∈ lc.toList ++ [top], r.base + r.size < base := by
    intro r hr
    rcases List.mem_append.mp hr with hr | hr
    · have hLe := hBefore r hr
      omega
    · rw [List.mem_singleton] at hr
      subst hr
      exact hGap
  rcases absorbRight_closes (lc.toList ++ [top]) rc
      (newNode base size obj) (map.size + 1) hLeftTop hLower
      hRight (fun r hr => Nat.le_of_lt (hRc r hr)) hN with
    ⟨rc', range', gone, hRightEq, hResult, hGone, hCov⟩
  rw [mapAddRange_eq_above obj hN hTop hSplay hGap]
  simp only [hRightEq]
  refine ⟨⟨?_, ?_⟩, ?_⟩
  · simpa [RangeMap.ranges] using hResult
  · change map.size + 1 - gone =
      ((lc.toList ++ [top]) ++ range' :: rc'.toList).length
    simp only [List.length_append, List.length_cons,
      List.length_nil]
    omega
  · change covered
        ((lc.toList ++ [top]) ++ range' :: rc'.toList) =
      covered map.ranges ∪ _
    rw [hCov, ← hList]
    simp only [covered_append, covered_cons, covered_nil,
      Set.union_empty, addrs_newNode]
    ac_rfl

end Branches

------------------------------------------------------------
-- Insertion as Set Union
------------------------------------------------------------

/- The base address at the root, zero for no root. -/
def rootBase : RangeNode ρ → Nat
| .nil => 0
| .node _ r _ => r.base

/-
  Where a stored range reaches below and past the new one,
  the splay at its base leaves no later range at the root.
-/
def RootHolds
    (map : RangeMap ρ)
    (base size : Nat) : Prop :=
  ∀ p ∈ map.ranges,
    p.base < base → base + size < p.base + p.size →
      rootBase (splay map.root base) ≤ base

instance
    (map : RangeMap ρ)
    (base size : Nat) :
    Decidable (RootHolds map base size) :=
  inferInstanceAs (Decidable (∀ p ∈ map.ranges, _))

/- The first range of an empty map. -/
theorem mapAddRange_of_empty
    {map : RangeMap ρ}
    (base size : Nat)
    (obj : Option ρ)
    (hRoot : map.root = .nil) :
    mapAddRange map base size obj =
      { map with
        root := .node .nil (newNode base size obj) .nil
        size := 1 } := by
  unfold mapAddRange
  rw [hRoot, splay_nil]

/-
  Insertion into a well-formed map: what it keeps, and when
  it is set union.
-/
theorem mapAddRange_spec
    {map : RangeMap ρ}
    {base size : Nat}
    (obj : Option ρ)
    (hMap : map.WellFormed)
    (hSize : 0 < size)
    (hFits : base + size < 2 ^ 64) :
    (mapAddRange map base size obj).WellFormed ∧
      ((mapAddRange map base size obj).covered =
          map.covered ∪ Set.Ico base (base + size) ↔
        RootHolds map base size) := by
  by_cases hNil : map.root = .nil
  · have hRanges : map.ranges = [] :=
      ranges_eq_nil_iff.mpr hNil
    rw [mapAddRange_of_empty base size obj hNil]
    refine ⟨⟨?_, rfl⟩, ?_⟩
    · exact Apart.cons_iff.mpr
        ⟨newNode_valid obj hSize hFits, Apart.nil, by simp⟩
    · constructor
      · intro _ p hp
        rw [hRanges] at hp
        simp at hp
      · intro _
        change covered [newNode base size obj] =
          covered map.ranges ∪ _
        rw [hRanges]
        simp
  · rcases splay_decompose base hNil hMap.apart with
      ⟨lc, top, rc, hSplay, hList, hLc, hRc⟩
    have hApart := hMap.apart
    change lc.toList ++ top :: rc.toList = map.ranges
      at hList
    rw [← hList, Apart.split_iff] at hApart
    rcases hApart with ⟨_, hTop, _, hBefore, hAfter⟩
    have hTopPos := hTop.pos
    have hHolds :
        (top.base ≤ base ∨
          (base < top.base ∧ top.base ≤ base + size)) →
          RootHolds map base size := by
      intro hRoot p hp hpBase hpEnd
      rw [hSplay]
      change top.base ≤ base
      rcases hRoot with hRoot | ⟨hLt, hLe⟩
      · exact hRoot
      · -- such a range would reach the root from the left
        rw [← hList] at hp
        rcases List.mem_append.mp hp with hp | hp
        · have := hBefore p hp
          omega
        · rcases List.mem_cons.mp hp with rfl | hp
          · omega
          · have := hAfter p hp
            omega
    by_cases hBelow : base ≤ top.base + top.size
    · by_cases hAbove : top.base ≤ base + size
      · have hBranch :=
          mapAddRange_of_touches obj hMap hSize hFits
            hSplay hList hLc hRc hBelow hAbove
        refine ⟨hBranch.1, fun _ => ?_, fun _ => hBranch.2⟩
        apply hHolds
        by_cases hLe : top.base ≤ base
        · exact Or.inl hLe
        · exact Or.inr ⟨by omega, hAbove⟩
      · have hBranch :=
          mapAddRange_of_before obj hMap hSize hSplay
            hList hLc (by omega)
        refine ⟨hBranch.1, hBranch.2.trans ?_⟩
        constructor
        · intro hInside p hp hpBase hpEnd
          have := hInside p hp hpBase
          omega
        · intro hRoot p hp hpBase
          by_contra hPast
          have hLe :=
            hRoot p hp hpBase (by omega)
          rw [hSplay] at hLe
          change top.base ≤ base at hLe
          omega
    · have hBranch :=
        mapAddRange_of_after obj hMap hSize hFits hSplay
          hList hRc (by omega)
      exact ⟨hBranch.1,
        fun _ => hHolds (Or.inl (by omega)),
        fun _ => hBranch.2⟩

/- A lookup re-roots the tree and changes nothing else. -/
theorem mapContains_keeps
    {map map' : RangeMap ρ}
    {addr : Nat}
    {found : Option (MemRange ρ)}
    (h : mapContains map addr = some (map', found)) :
    map'.ranges = map.ranges ∧ map'.size = map.size := by
  unfold mapContains at h
  have hList := toList_splay map.root addr
  cases hSplay : splay map.root addr with
  | nil =>
      rw [hSplay] at h
      simp only [Option.some.injEq, Prod.mk.injEq] at h
      rw [← h.1]
      exact ⟨rfl, rfl⟩
  | node lc top rc =>
      rw [hSplay] at h hList
      have hMap :
          map' = { map with root := .node lc top rc } := by
        simp only at h
        split_ifs at h with hLt hBound
        · cases hRight : rightmost lc with
          | none => simp_all
          | some node =>
              simp only [hRight] at h
              split_ifs at h <;> simp_all
        · simp_all
        · simp_all
      rw [hMap]
      exact ⟨hList, rfl⟩

/-
  The maps built from an empty one by any sequence of
  insertions and lookups.
-/
inductive AddReachable : RangeMap ρ → Prop where
| empty
    (isHash : Bool) :
    AddReachable { initEmptyMap with isHash := isHash }
| add
    {map : RangeMap ρ}
    {base size : Nat}
    (obj : Option ρ) :
    AddReachable map → 0 < size → base + size < 2 ^ 64 →
      AddReachable (mapAddRange map base size obj)
| contains
    {map map' : RangeMap ρ}
    {addr : Nat}
    {found : Option (MemRange ρ)} :
    AddReachable map →
      mapContains map addr = some (map', found) →
      AddReachable map'

theorem AddReachable.wellFormed
    {map : RangeMap ρ}
    (h : AddReachable map) :
    map.WellFormed := by
  induction h with
  | empty isHash => exact ⟨Apart.nil, rfl⟩
  | add obj _ hSize hFits ih =>
      exact (mapAddRange_spec obj ih hSize hFits).1
  | contains _ hFound ih =>
      rcases mapContains_keeps hFound with
        ⟨hRanges, hCount⟩
      exact keeps_of_ranges ih hRanges hCount

/- One byte at 200, then a hundred bytes from 0. -/
def twoRanges : RangeMap Unit :=
  mapAddRange (mapAddRange initEmptyMap 200 1 none)
    0 100 none

theorem twoRanges_reachable : AddReachable twoRanges := by
  apply AddReachable.add none _ (by omega) (by omega)
  apply AddReachable.add none _ (by omega) (by omega)
  exact AddReachable.empty false

end Cbop
