import Cbop.RangeTree.SetOps

/-
  Looking up an address and removing a node.

  A lookup splays at the address: the range that holds it,
  if any, is then the root or the last range on the left. On
  ranges that are apart the assertion in `map_contains`
  holds and the answer is exact.

  Main declarations:
    * `mapContains_spec`
    * `mapRemoveNode`, `mapRemoveNode_spec`
    * `mapContains_mapRemoveNode`
-/

namespace Cbop

variable {ρ : Type}

------------------------------------------------------------
-- Lookup
------------------------------------------------------------

/- The right spine ends at the last range in order. -/
theorem rightmost_spec
    {t : RangeNode ρ}
    (hNode : t ≠ .nil) :
    ∃ before r, rightmost t = some r ∧
      t.toList = before ++ [r] := by
  induction t with
  | nil => exact absurd rfl hNode
  | node lc r rc _ ih =>
      cases rc with
      | nil => exact ⟨lc.toList, r, rfl, by simp⟩
      | node rlc s rrc =>
          rcases ih (by simp) with ⟨before, last, hLast, hList⟩
          refine ⟨lc.toList ++ r :: before, last, hLast, ?_⟩
          rw [BinTree.toList_node, hList]
          simp

/- What a lookup finds, and what it leaves. -/
structure LooksUp
    (map : RangeMap ρ)
    (addr : Nat)
    (map' : RangeMap ρ)
    (found : Option (MemRange ρ)) : Prop where
  call : mapContains map addr = some (map', found)
  ranges_eq : map'.ranges = map.ranges
  size_eq : map'.size = map.size
  found_iff : ∀ r, found = some r ↔
    r ∈ map.ranges ∧ addr ∈ r.addrs

/- Of ranges around an address one alone can hold it. -/
theorem found_iff_of_split
    {gap addr : Nat}
    {before after : List (MemRange ρ)}
    {s : MemRange ρ}
    (hApart : Apart gap (before ++ s :: after))
    (hBase : s.base ≤ addr)
    (hAfter : ∀ r ∈ after, addr < r.base)
    (r : MemRange ρ) :
    (r ∈ before ++ s :: after ∧ addr ∈ r.addrs) ↔
      r = s ∧ addr < s.base + s.size := by
  rw [Apart.split_iff] at hApart
  rcases hApart with ⟨_, _, _, hBefore, _⟩
  rw [MemRange.mem_addrs]
  constructor
  · intro h
    rcases h with ⟨hr, hLow, hHigh⟩
    rcases List.mem_append.mp hr with hr | hr
    · have hEnd := hBefore r hr
      omega
    · rcases List.mem_cons.mp hr with rfl | hr
      · exact ⟨rfl, hHigh⟩
      · have hLt := hAfter r hr
        omega
  · intro h
    rcases h with ⟨rfl, hHigh⟩
    exact ⟨by simp, hBase, hHigh⟩

/- The last test of a lookup, at the one range left. -/
theorem lookup_of_split
    {gap addr : Nat}
    {before after : List (MemRange ρ)}
    {s : MemRange ρ}
    (map' : RangeMap ρ)
    (hApart : Apart gap (before ++ s :: after))
    (hBase : s.base ≤ addr)
    (hAfter : ∀ r ∈ after, addr < r.base) :
    ∃ found,
      (if s.base + s.size > addr then some (map', some s)
        else some (map', none)) = some (map', found) ∧
      ∀ r, found = some r ↔
        r ∈ before ++ s :: after ∧ addr ∈ r.addrs := by
  have hIff := found_iff_of_split hApart hBase hAfter
  by_cases hHolds : s.base + s.size > addr
  · rw [if_pos hHolds]
    refine ⟨some s, rfl, ?_⟩
    intro r
    rw [hIff r]
    constructor
    · intro h
      rcases h with ⟨rfl⟩
      exact ⟨rfl, hHolds⟩
    · intro h
      rcases h with ⟨rfl, _⟩
      rfl
  · rw [if_neg hHolds]
    refine ⟨none, rfl, ?_⟩
    intro r
    rw [hIff r]
    simp only [reduceCtorEq, false_iff, not_and]
    intro _
    exact hHolds

theorem mapContains_spec
    {gap : Nat}
    {map : RangeMap ρ}
    (hApart : Apart gap map.ranges)
    (addr : Nat) :
    ∃ map' found, LooksUp map addr map' found := by
  suffices hCall : ∃ map' found,
      mapContains map addr = some (map', found) ∧
        ∀ r, found = some r ↔
          r ∈ map.ranges ∧ addr ∈ r.addrs by
    rcases hCall with ⟨map', found, hCall, hFound⟩
    rcases mapContains_keeps hCall with ⟨hRanges, hSize⟩
    exact ⟨map', found, hCall, hRanges, hSize, hFound⟩
  unfold mapContains
  by_cases hNil : map.root = .nil
  · have hRanges : map.ranges = [] :=
      ranges_eq_nil_iff.mpr hNil
    rw [hNil, splay_nil, hRanges]
    exact ⟨map, none, rfl, by simp⟩
  · rcases splay_decompose addr hNil hApart with
      ⟨lc, top, rc, hSplay, hList, hLc, hRc⟩
    have hRanges :
        map.ranges = lc.toList ++ top :: rc.toList :=
      hList.symm
    rw [hRanges] at hApart ⊢
    rw [hSplay]
    have hParts := hApart
    rw [Apart.split_iff] at hParts
    rcases hParts with ⟨hLeft, hTop, _, _, _⟩
    by_cases hLt : addr < top.base
    · have hAbove :
          ∀ r ∈ top :: rc.toList, addr < r.base := by
        intro r hr
        rcases List.mem_cons.mp hr with rfl | hr
        · exact hLt
        · exact hRc r hr
      simp only [hLt, if_true]
      by_cases hLcNil : lc = .nil
      · -- every range starts past the address
        rw [hLcNil]
        refine ⟨_, none, rfl, ?_⟩
        intro r
        simp only [reduceCtorEq, BinTree.toList_nil,
          List.nil_append, false_iff, not_and]
        intro hr hAddr
        have hPast := hAbove r hr
        rw [MemRange.mem_addrs] at hAddr
        omega
      · rcases rightmost_spec hLcNil with
          ⟨before, node, hLast, hLcList⟩
        have hMem : node ∈ lc.toList := by
          rw [hLcList]
          simp
        have hBase := Nat.le_of_lt (hLc node hMem)
        have hSplit :
            lc.toList ++ top :: rc.toList =
              before ++ node :: (top :: rc.toList) := by
          rw [hLcList]
          simp
        rw [hSplit] at hApart ⊢
        simp only [hLast, hBase, if_true,
          (hLeft.valid node hMem).bound_eq]
        exact ⟨_, lookup_of_split _ hApart hBase hAbove⟩
    · simp only [hLt, if_false, hTop.bound_eq]
      exact ⟨_, lookup_of_split _ hApart (by omega) hRc⟩

/- Disjoint ranges with a common address are one. -/
theorem eq_of_mem_addrs
    {gap : Nat}
    {map : RangeMap ρ}
    {r s : MemRange ρ}
    {addr : Nat}
    (hMap : map.Keeps gap)
    (hr : r ∈ map.ranges)
    (hs : s ∈ map.ranges)
    (hAddrR : addr ∈ r.addrs)
    (hAddrS : addr ∈ s.addrs) :
    r = s := by
  rcases mapContains_spec hMap.apart addr with
    ⟨map', found, hLookup⟩
  have hR := (hLookup.found_iff r).mpr ⟨hr, hAddrR⟩
  have hS := (hLookup.found_iff s).mpr ⟨hs, hAddrS⟩
  rw [hR, Option.some.injEq] at hS
  exact hS

------------------------------------------------------------
-- Removal
------------------------------------------------------------

/-
  The tree `x` that `map_remove_node` builds from the two
  subtrees of the node it removes.
-/
def joinSubtrees
    (lc rc : RangeNode ρ)
    (nodeBase : Nat) :
    RangeNode ρ :=
  match splay lc nodeBase with
  | .nil => rc
  | .node xlc x _ => .node xlc x rc

/-
  `map_remove_node`. `none` is a failed assertion: the map
  is empty or has no node with this base.
-/
def mapRemoveNode
    (map : RangeMap ρ)
    (nodeBase : Nat) :
    Option (RangeMap ρ) :=
  match splay map.root nodeBase with
  | .nil => none
  | .node lc rt rc =>
      if rt.base = nodeBase then
        some { map with
          root := joinSubtrees lc rc nodeBase
          size := map.size - 1 }
      else
        none

/-
  A splay past the last key leaves nothing on the right of
  the new root.
-/
theorem splay_below
    {gap : Nat}
    {t : RangeNode ρ}
    {key : Nat}
    (hApart : Apart gap t.toList)
    (hBelow : ∀ r ∈ t.toList, r.base < key)
    {lc rc : RangeNode ρ}
    {r : MemRange ρ}
    (h : splay t key = .node lc r rc) :
    rc = .nil ∧ t.toList = lc.toList ++ [r] := by
  have hNode : t ≠ .nil := by
    intro hEq
    subst hEq
    simp at h
  rcases splay_decompose key hNode hApart with
    ⟨lc', r', rc', hSplay, hList, _, hAbove⟩
  rw [h, BinTree.node.injEq] at hSplay
  rcases hSplay with ⟨rfl, rfl, rfl⟩
  have hNil : rc.toList = [] := by
    apply List.eq_nil_iff_forall_not_mem.mpr
    intro s hs
    have hPast := hAbove s hs
    have hPrior := hBelow s (by rw [← hList]; simp [hs])
    omega
  refine ⟨(BinTree.toList_eq_nil_iff rc).mp hNil, ?_⟩
  rw [← hList, hNil]

/- The right subtree of a splay past the last key is free. -/
theorem toList_joinSubtrees
    {gap : Nat}
    {lc rc : RangeNode ρ}
    {nodeBase : Nat}
    (hApart : Apart gap lc.toList)
    (hBelow : ∀ r ∈ lc.toList, r.base < nodeBase) :
    (joinSubtrees lc rc nodeBase).toList =
      lc.toList ++ rc.toList := by
  unfold joinSubtrees
  cases hX : splay lc nodeBase with
  | nil =>
      have hEmpty := toList_splay lc nodeBase
      rw [hX, BinTree.toList_nil] at hEmpty
      simp [← hEmpty]
  | node xlc x xrc =>
      rcases splay_below hApart hBelow hX with ⟨_, hXList⟩
      rw [hXList]
      simp

/- Removal of a stored range leaves the others in order. -/
theorem mapRemoveNode_removes
    {gap : Nat}
    {map : RangeMap ρ}
    {r : MemRange ρ}
    {before after : List (MemRange ρ)}
    (hApart : Apart gap map.ranges)
    (hRanges : map.ranges = before ++ r :: after) :
    ∃ map', mapRemoveNode map r.base = some map' ∧
      map'.ranges = before ++ after ∧
      map'.size = map.size - 1 := by
  have hMem : r ∈ map.ranges := by
    rw [hRanges]
    simp
  have hNil : map.root ≠ .nil := by
    intro hNil
    rw [ranges_eq_nil_iff.mpr hNil] at hMem
    cases hMem
  rcases splay_decompose r.base hNil hApart with
    ⟨lc, rt, rc, hSplay, hList, hLc, hRc⟩
  have hSplit :
      map.ranges = lc.toList ++ rt :: rc.toList :=
    hList.symm
  have hRoot : rt = r := by
    rw [hSplit] at hMem
    rcases List.mem_append.mp hMem with hMem | hMem
    · have hLt := hLc r hMem
      omega
    · rcases List.mem_cons.mp hMem with hEq | hMem
      · exact hEq.symm
      · have hLt := hRc r hMem
        omega
  subst hRoot
  -- the bases tell the two ways to split the list apart
  have hSame :
      lc.toList = before ∧ rc.toList = after := by
    have hNotLeft : rt ∉ lc.toList := by
      intro hIn
      have hLt := hLc rt hIn
      omega
    have hNotRight : rt ∉ rc.toList := by
      intro hIn
      have hLt := hRc rt hIn
      omega
    have hEq :
        lc.toList ++ rt :: rc.toList =
          before ++ rt :: after := by
      rw [← hSplit, hRanges]
    rw [List.append_cons_inj_of_notMem hNotLeft
      hNotRight] at hEq
    exact ⟨hEq.1, hEq.2.2⟩
  rcases hSame with ⟨rfl, rfl⟩
  rw [hSplit, Apart.split_iff] at hApart
  have hToList :
      (joinSubtrees lc rc rt.base).toList =
        lc.toList ++ rc.toList :=
    toList_joinSubtrees hApart.1 hLc
  unfold mapRemoveNode
  rw [hSplay]
  simp only [if_true]
  exact ⟨_, rfl, hToList, rfl⟩

/- It keeps a map's shape and its count. -/
theorem mapRemoveNode_spec
    {gap : Nat}
    {map : RangeMap ρ}
    {r : MemRange ρ}
    {before after : List (MemRange ρ)}
    (hMap : map.Keeps gap)
    (hRanges : map.ranges = before ++ r :: after) :
    ∃ map', mapRemoveNode map r.base = some map' ∧
      map'.ranges = before ++ after ∧ map'.Keeps gap := by
  rcases mapRemoveNode_removes hMap.apart hRanges with
    ⟨map', hCall, hRanges', hSize'⟩
  have hApart := hMap.apart
  rw [hRanges, Apart.split_iff] at hApart
  rcases hApart with ⟨hLeft, hValid, hRight, hBefore, hAfter⟩
  have hCross :
      ∀ s ∈ before, ∀ u ∈ after,
        s.base + s.size + gap ≤ u.base := by
    intro s hs u hu
    have hSr := hBefore s hs
    have hRu := hAfter u hu
    omega
  have hCount := hMap.size_eq
  rw [hRanges, List.length_append, List.length_cons] at hCount
  refine ⟨map', hCall, hRanges', ?_, ?_⟩
  · rw [hRanges']
    exact Apart.append_iff.mpr ⟨hLeft, hRight, hCross⟩
  · rw [hSize', hRanges', List.length_append]
    omega

------------------------------------------------------------
-- One Range Only
------------------------------------------------------------

/-
  On disjoint ranges, a lookup finds the one range with the
  address and changes no range, and a removal takes out the
  one range with the base.
-/
theorem mapContains_mapRemoveNode
    {map : RangeMap ρ}
    (hApart : Apart 0 map.ranges) :
    (∀ addr, ∃ map' found,
      mapContains map addr = some (map', found) ∧
      (∀ r, found = some r ↔
        r ∈ map.ranges ∧ addr ∈ r.addrs) ∧
      (found = none ↔ ∀ r ∈ map.ranges, addr ∉ r.addrs) ∧
      map'.ranges = map.ranges ∧ map'.size = map.size) ∧
    (∀ r ∈ map.ranges, ∃ map' before after,
      mapRemoveNode map r.base = some map' ∧
      map.ranges = before ++ r :: after ∧
      map'.ranges = before ++ after ∧
      map'.size = map.size - 1) := by
  constructor
  · intro addr
    rcases mapContains_spec hApart addr with
      ⟨map', found, hLookup⟩
    refine ⟨map', found, hLookup.call, hLookup.found_iff, ?_,
      hLookup.ranges_eq, hLookup.size_eq⟩
    rw [Option.eq_none_iff_forall_ne_some]
    constructor
    · intro hNone r hr hAddr
      exact hNone r ((hLookup.found_iff r).mpr ⟨hr, hAddr⟩)
    · intro hFree r hFound
      rcases (hLookup.found_iff r).mp hFound with ⟨hr, hAddr⟩
      exact hFree r hr hAddr
  · intro r hr
    rcases List.append_of_mem hr with ⟨before, after, hRanges⟩
    rcases mapRemoveNode_removes hApart hRanges with
      ⟨map', hCall, hRanges', hSize'⟩
    exact ⟨map', before, after, hCall, hRanges, hRanges',
      hSize'⟩

/- The first of two adjacent ranges is removed. -/
theorem mapContains_mapRemoveNode_adjacentRanges :
    ∃ map' before after,
      mapRemoveNode adjacentRanges 8 = some map' ∧
      adjacentRanges.ranges =
        before ++ newNode 8 4 none :: after ∧
      map'.ranges = before ++ after ∧ map'.size = 3 - 1 :=
  (mapContains_mapRemoveNode (by decide)).2
    (newNode 8 4 none) (by decide)

end Cbop
