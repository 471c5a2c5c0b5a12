import Cbop.PostWait.FromTask

/-
  `map_add_range_from_task` on ranges that partly overlap a
  stored one.

  The function compares the new range with two nodes of the
  splayed tree, the root and its left child. A stored range
  elsewhere in the tree goes unnoticed, and the new range is
  stored over it or fails an assertion. Where the overlap is
  noticed the call is refused, with `map->root` still at the
  node that was the root before the splay.

  Main declarations:
    * `SplayStays`, `refused_intact_iff`
    * `TaskCall`, `TaskCall.OverlapSeen`
    * `staysDisjoint_iff`
-/

namespace Cbop

------------------------------------------------------------
-- The Map of a Refused Call
------------------------------------------------------------

/-
  A splay at the key leaves the root where it is: the key is
  the root's, or there is no child on the key's side.
-/
def SplayStays (t : RangeNode Bytes) (key : Nat) : Prop :=
  match t with
  | .nil => True
  | .node lc r rc =>
      (key < r.base → lc = .nil) ∧ (r.base < key → rc = .nil)

/- A pointer into a tree sees nodes of the tree only. -/
theorem mem_of_mem_subtreeAt
    {t : RangeNode Bytes}
    {base : Nat}
    {r : MemRange Bytes}
    (hr : r ∈ (subtreeAt t base).toList) :
    r ∈ t.toList := by
  induction t with
  | nil => exact hr
  | node lc s rc ihl ihr =>
      unfold subtreeAt at hr
      split at hr
      · exact hr
      · split at hr
        · simp [ihl hr]
        · simp [ihr hr]

/- The branch of the function that calls `BOP_abort_spec`. -/
theorem refused_inv
    {map map' : RangeMap Bytes}
    {base size pprId : Nat}
    {obj : Option Bytes}
    (hCall : mapAddRangeFromTask map base size obj pprId =
      .refused map') :
    ∃ lc top rc, splay map.root base = .node lc top rc ∧
      map' = { map with
        root := subtreeAt (.node lc top rc)
          (rootBase map.root) } := by
  unfold mapAddRangeFromTask at hCall
  split at hCall
  · cases hCall
  · rename_i lc top rc hSplay
    refine ⟨lc, top, rc, hSplay, ?_⟩
    simp only at hCall
    split at hCall
    · split at hCall
      · split at hCall
        · cases hCall
        · cases hCall
      · split at hCall
        · cases hCall
        · cases hCall
    · split at hCall
      · split at hCall
        · cases hCall
        · cases hCall
      · cases hCall
        rfl

/-
  Where the root moves, the node that replaces it is out of
  reach of a pointer to the old root.
-/
theorem lost_of_moved
    {gap : Nat}
    {lc rc : RangeNode Bytes}
    {top : MemRange Bytes}
    {base : Nat}
    (hApart : Apart gap (lc.toList ++ top :: rc.toList))
    (hMoved : base ≠ top.base) :
    top ∉ (subtreeAt (.node lc top rc) base).toList := by
  rw [Apart.split_iff] at hApart
  rcases hApart with ⟨_, hTop, _, hBefore, hAfter⟩
  have hPos := hTop.pos
  intro hMem
  unfold subtreeAt at hMem
  rw [if_neg hMoved] at hMem
  split at hMem
  · have hEnd := hBefore top (mem_of_mem_subtreeAt hMem)
    omega
  · have hEnd := hAfter top (mem_of_mem_subtreeAt hMem)
    omega

/- A splay that descends brings up a node of another base. -/
theorem base_ne_of_descends
    {gap : Nat}
    {map : RangeMap Bytes}
    {base : Nat}
    {lc rc : RangeNode Bytes}
    {top : MemRange Bytes}
    (hApart : Apart gap map.ranges)
    (hSplay : splay map.root base = .node lc top rc)
    (hDescends : ¬ SplayStays map.root base) :
    rootBase map.root ≠ top.base := by
  unfold RangeMap.ranges at hApart
  cases hRoot : map.root with
  | nil =>
      rw [hRoot] at hDescends
      exact absurd trivial hDescends
  | node lc' old rc' =>
      rw [hRoot] at hApart hSplay hDescends
      have hOrder := hApart.ordered
      rw [BinTree.toList_node, List.pairwise_append,
        List.pairwise_cons] at hOrder
      rcases hOrder with ⟨_, ⟨hAfter, _⟩, hCross⟩
      change old.base ≠ top.base
      by_cases hLeft : base < old.base ∧ lc' ≠ .nil
      · rcases BinTree.splay_of_left rc' hLeft.1 hLeft.2 with
          ⟨lc'', top', rc'', hEq, hMem⟩
        have hTop :=
          hSplay.symm.trans (show splay _ _ = _ from hEq)
        rw [BinTree.node.injEq] at hTop
        rw [← hTop.2.1] at hMem
        have hLt := hCross top hMem old List.mem_cons_self
        omega
      · have hRight : old.base < base ∧ rc' ≠ .nil := by
          by_contra hRight
          apply hDescends
          constructor
          · intro hLt
            by_contra hNode
            exact hLeft ⟨hLt, hNode⟩
          · intro hGt
            by_contra hNode
            exact hRight ⟨hGt, hNode⟩
        rcases BinTree.splay_of_right lc' hRight.1
            hRight.2 with
          ⟨lc'', top', rc'', hEq, hMem⟩
        have hTop :=
          hSplay.symm.trans (show splay _ _ = _ from hEq)
        rw [BinTree.node.injEq] at hTop
        rw [← hTop.2.1] at hMem
        have hLt := hAfter top hMem
        omega

/-
  A refused insertion leaves the ranges reachable from
  `map->root` and their count as they were exactly if the
  splay did not move the root.
-/
theorem refused_intact_iff
    {map map' : RangeMap Bytes}
    {base size pprId : Nat}
    {obj : Option Bytes}
    (hMap : map.Keeps 0)
    (hCall : mapAddRangeFromTask map base size obj pprId =
      .refused map') :
    ((∀ r, r ∈ map'.ranges ↔ r ∈ map.ranges) ∧
        map'.size = map'.ranges.length) ↔
      SplayStays map.root base := by
  rcases refused_inv hCall with ⟨lc, top, rc, hSplay, rfl⟩
  have hList : lc.toList ++ top :: rc.toList = map.ranges := by
    have hSame := toList_splay map.root base
    rw [hSplay] at hSame
    exact hSame
  constructor
  · intro h
    rcases h with ⟨hRanges, _⟩
    by_contra hDescends
    have hApart := hMap.apart
    rw [← hList] at hApart
    have hLost := lost_of_moved hApart
      (base_ne_of_descends hMap.apart hSplay hDescends)
    apply hLost
    apply (hRanges top).mpr
    rw [← hList]
    simp
  · intro hStays
    have hSame :
        subtreeAt (.node lc top rc) (rootBase map.root) =
          map.root := by
      cases hRoot : map.root with
      | nil =>
          rw [hRoot, splay_nil] at hSplay
          cases hSplay
      | node lc' old rc' =>
          rw [hRoot] at hSplay hStays
          have hEq : splay (.node lc' old rc') base =
              .node lc' old rc' :=
            BinTree.splay_of_stays hStays.1 hStays.2
          rw [hEq] at hSplay
          rw [← hSplay]
          exact if_pos rfl
    rw [hSame]
    exact ⟨fun r => Iff.rfl, hMap.size_eq⟩

/- Ten bytes at 50, then ten at 100, which is the root. -/
def fiftyAndHundred : RangeMap Bytes where
  isHash := false
  root :=
    .node (.node .nil (newNode 50 10 none) .nil)
      (newNode 100 10 none) .nil
  size := 2

theorem fiftyAndHundred_keeps : fiftyAndHundred.Keeps 0 := by
  refine ⟨⟨?_, ?_⟩, rfl⟩
  · intro r hr
    have hCases :
        r = newNode 50 10 none ∨ r = newNode 100 10 none := by
      simpa [RangeMap.ranges, fiftyAndHundred] using hr
    rcases hCases with rfl | rfl
    · exact ⟨by decide, by decide⟩
    · exact ⟨by decide, by decide⟩
  · decide

/-
  Ten bytes at 45 are refused, and the range at 50 is lost
  with them: the map still counts two.
-/
theorem refused_loses_range :
    fiftyAndHundred.Keeps 0 ∧
      ∃ map', mapAddRangeFromTask fiftyAndHundred 45 10 none 1 =
          .refused map' ∧
        newNode 50 10 none ∈ fiftyAndHundred.ranges ∧
        newNode 50 10 none ∉ map'.ranges ∧
        map'.size = 2 ∧ map'.ranges.length = 1 := by
  refine ⟨fiftyAndHundred_keeps, _, rfl, ?_⟩
  decide

/- Ten bytes at 100 alone. -/
def hundredAlone : RangeMap Bytes where
  isHash := false
  root := .node .nil (newNode 100 10 none) .nil
  size := 1

/- Ten bytes at 95 are refused and nothing is lost. -/
theorem refused_intact_at_root :
    ∃ map', mapAddRangeFromTask hundredAlone 95 10 none 1 =
        .refused map' ∧
      newNode 100 10 none ∈ map'.ranges ∧
      map'.size = map'.ranges.length := by
  have hKeeps : hundredAlone.Keeps 0 := by
    refine ⟨?_, rfl⟩
    exact Apart.cons_iff.mpr
      ⟨⟨by decide, by decide⟩, Apart.nil, by simp⟩
  have hCall :
      mapAddRangeFromTask hundredAlone 95 10 none 1 =
        .refused hundredAlone := by
    decide
  have hIntact := (refused_intact_iff hKeeps hCall).mpr
    ⟨fun _ => rfl, fun _ => rfl⟩
  exact ⟨hundredAlone, hCall, by decide, hIntact.2⟩

------------------------------------------------------------
-- Overlaps That Go Unnoticed
------------------------------------------------------------

/- The arguments of a call. -/
structure TaskCall where
  base : Nat
  size : Nat
  obj : Option Bytes
  pprId : Nat

namespace TaskCall

/- The addresses of the new range. -/
def range (c : TaskCall) : MemRange Bytes :=
  newNode c.base c.size none

/- The call on a map. -/
def run (c : TaskCall) (map : RangeMap Bytes) : Added :=
  mapAddRangeFromTask map c.base c.size c.obj c.pprId

/-
  The stored ranges a new one is compared with: the root of
  the splayed tree and its left child.
-/
def compared (t : RangeNode Bytes) : List (MemRange Bytes) :=
  match t with
  | .nil => []
  | .node lc top _ => top :: (rootRange lc).toList

/-
  An overlap with any stored range shows as an overlap with
  one of the two the function looks at.
-/
def OverlapSeen (c : TaskCall) (map : RangeMap Bytes) : Prop :=
  (∃ r ∈ map.ranges, Meets c.range r) →
    ∃ r ∈ compared (splay map.root c.base), Meets c.range r

instance (c : TaskCall) (map : RangeMap Bytes) :
    Decidable (c.OverlapSeen map) :=
  inferInstanceAs (Decidable (_ → _))

/- The new range is not empty and ends in the address space. -/
abbrev Fits (c : TaskCall) : Prop :=
  c.range.Valid

instance (c : TaskCall) : Decidable c.Fits :=
  decidable_of_iff
    (0 < c.size ∧ c.base + c.size < 2 ^ 64)
    ⟨fun h => ⟨h.1, h.2⟩, fun h => ⟨h.pos, h.fits⟩⟩

end TaskCall

/- Disjoint ranges in a search tree that counts its nodes. -/
structure KeepsDisjoint (map : RangeMap Bytes) : Prop where
  ordered : BinTree.Ordered MemRange.base map.root
  disjoint : map.ranges.Pairwise (fun r s => ¬ Meets r s)
  size_eq : map.size = map.ranges.length

/-
  Through a sequence of calls, until one of them reaches
  `BOP_abort_spec`: the map keeps disjoint ranges, no
  assertion fails, and a call that returns was given a range
  that equals or misses every stored one.
-/
def StaysDisjoint :
    RangeMap Bytes → List TaskCall → Prop
| map, [] => KeepsDisjoint map
| map, c :: rest =>
    KeepsDisjoint map ∧
      match c.run map with
      | .done map' _ =>
          (∀ r ∈ map.ranges, EqualOrDisjoint r c.range) ∧
            StaysDisjoint map' rest
      | .refused _ => True
      | .fault => False

/- Every call of the sequence notices its overlaps. -/
def AlwaysSeen :
    RangeMap Bytes → List TaskCall → Prop
| _, [] => True
| map, c :: rest =>
    c.OverlapSeen map ∧
      match c.run map with
      | .done map' _ => AlwaysSeen map' rest
      | .refused _ => True
      | .fault => True

theorem keepsDisjoint_of_keeps
    {map : RangeMap Bytes}
    (hMap : map.Keeps 0) :
    KeepsDisjoint map := by
  refine ⟨hMap.apart.ordered, ?_, hMap.size_eq⟩
  apply hMap.apart.order.imp
  intro r s hLe h
  rcases h with ⟨_, hGt⟩
  omega

section Compared

variable {map : RangeMap Bytes}
variable {c : TaskCall}

/- The tests of the function are tests of those two. -/
theorem overlap_compared_iff
    {gap : Nat}
    {lc rc : RangeNode Bytes}
    {top n : MemRange Bytes}
    (hApart : Apart gap (lc.toList ++ top :: rc.toList))
    (hValid : n.Valid) :
    ((overlap n top).isSome || overlapsRoot n lc) = true ↔
      ∃ r ∈ TaskCall.compared (.node lc top rc),
        Meets n r := by
  have hStored := hApart.valid
  have hTop : (overlap n top).isSome = true ↔ Meets n top :=
    overlap_isSome_iff hValid (hStored top (by simp))
  rw [Bool.or_eq_true, hTop]
  simp only [TaskCall.compared, List.mem_cons,
    exists_eq_or_imp]
  cases lc with
  | nil => simp [overlapsRoot, rootRange]
  | node llc l lrc =>
      have hLeft : (overlap n l).isSome = true ↔ Meets n l :=
        overlap_isSome_iff hValid (hStored l (by simp))
      simp [overlapsRoot, rootRange, hLeft]

/- The addresses of the new node are those of the call. -/
theorem meets_taskNode_iff
    (c : TaskCall)
    (r : MemRange Bytes) :
    Meets (taskNode c.base c.size c.obj c.pprId) r ↔
      Meets c.range r :=
  Iff.rfl

/-
  An overlap seen with a range of another extent is refused.
-/
theorem run_of_partial_overlap
    (hMap : map.Keeps 0)
    (hFits : c.Fits)
    (hSeen : c.OverlapSeen map)
    {r : MemRange Bytes}
    (hr : r ∈ map.ranges)
    (hMeets : Meets c.range r)
    (hOther : ¬ SameExtent r c.range) :
    ∃ map', c.run map = .refused map' := by
  have hNil : map.root ≠ .nil := by
    intro hNil
    rw [ranges_eq_nil_iff.mpr hNil] at hr
    cases hr
  rcases splay_decompose c.base hNil hMap.apart with
    ⟨lc, top, rc, hSplay, hList, _, _⟩
  have hRanges :
      map.ranges = lc.toList ++ top :: rc.toList :=
    hList.symm
  have hApart := hMap.apart
  rw [hRanges] at hApart hr
  have hNode : (taskNode c.base c.size c.obj c.pprId).Valid :=
    ⟨hFits.pos, hFits.fits⟩
  have hOverlap :
      ((overlap (taskNode c.base c.size c.obj c.pprId)
          top).isSome ||
        overlapsRoot (taskNode c.base c.size c.obj c.pprId)
          lc) = true := by
    rw [overlap_compared_iff hApart hNode]
    simp only [meets_taskNode_iff, ← hSplay]
    apply hSeen
    exact ⟨r, by rw [hRanges]; exact hr, hMeets⟩
  -- a root of the new extent would keep `r` away from it
  have hNotTop : ¬ SameExtent c.range top := by
    intro h
    rcases h with ⟨hBase, hSize⟩
    rw [Apart.split_iff] at hApart
    rcases hApart with ⟨_, _, _, hBefore, hAfter⟩
    rcases hMeets with ⟨hLow, hHigh⟩
    rcases List.mem_append.mp hr with hr | hr
    · have hEnd := hBefore r hr
      omega
    · rcases List.mem_cons.mp hr with rfl | hr
      · exact hOther ⟨hBase.symm, hSize.symm⟩
      · have hStart := hAfter r hr
        omega
  unfold taskNode at hOverlap
  unfold TaskCall.run mapAddRangeFromTask
  simp only [hSplay, hOverlap, Bool.not_true,
    Bool.false_eq_true, if_false]
  exact ⟨_, if_neg hNotTop⟩

/- A call that notices its overlaps keeps the map sound. -/
theorem run_of_seen
    (hMap : map.Keeps 0)
    (hFits : c.Fits)
    (hSeen : c.OverlapSeen map) :
    (∃ map' range, c.run map = .done map' range ∧
      (∀ r ∈ map.ranges, EqualOrDisjoint r c.range) ∧
      map'.Keeps 0) ∨
    ∃ map', c.run map = .refused map' := by
  by_cases hAll : ∀ r ∈ map.ranges, EqualOrDisjoint r c.range
  · left
    rcases mapAddRangeFromTask_spec c.obj c.pprId hMap
        hFits.pos hFits.fits hAll with
      ⟨map', range, hCall, hKeeps, _, _⟩
    exact ⟨map', range, hCall, hAll, hKeeps⟩
  · right
    simp only [EqualOrDisjoint, not_forall, not_or,
      not_not] at hAll
    rcases hAll with ⟨r, hr, hOther, hMeets⟩
    exact run_of_partial_overlap hMap hFits hSeen hr
      hMeets.symm hOther

/-
  A call with an overlap it does not notice is not refused:
  it returns or an assertion fails.
-/
theorem run_of_hidden
    (hMap : map.Keeps 0)
    (hFits : c.Fits)
    (hHidden : ¬ c.OverlapSeen map) :
    (∀ map', c.run map ≠ .refused map') ∧
      ∃ r ∈ map.ranges, ¬ EqualOrDisjoint r c.range := by
  simp only [TaskCall.OverlapSeen, Classical.not_imp] at hHidden
  rcases hHidden with ⟨⟨r, hr, hMeets⟩, hNone⟩
  have hNil : map.root ≠ .nil := by
    intro hNil
    rw [ranges_eq_nil_iff.mpr hNil] at hr
    cases hr
  rcases splay_decompose c.base hNil hMap.apart with
    ⟨lc, top, rc, hSplay, hList, hLc, hRc⟩
  have hRanges :
      map.ranges = lc.toList ++ top :: rc.toList :=
    hList.symm
  have hApart := hMap.apart
  rw [hRanges] at hApart hr
  rw [hSplay] at hNone
  constructor
  · intro map' hRefused
    have hNode :
        (taskNode c.base c.size c.obj c.pprId).Valid :=
      ⟨hFits.pos, hFits.fits⟩
    have hOverlap :
        ((overlap (taskNode c.base c.size c.obj c.pprId)
            top).isSome ||
          overlapsRoot (taskNode c.base c.size c.obj c.pprId)
            lc) = false := by
      rw [Bool.eq_false_iff, Ne,
        overlap_compared_iff hApart hNode]
      exact hNone
    unfold taskNode at hOverlap
    unfold TaskCall.run mapAddRangeFromTask at hRefused
    simp only [hSplay, hOverlap, Bool.not_false,
      if_true] at hRefused
    split at hRefused
    · split at hRefused
      · cases hRefused
      · cases hRefused
    · split at hRefused
      · cases hRefused
      · cases hRefused
  · refine ⟨r, by rw [hRanges]; exact hr, ?_⟩
    intro h
    rcases h with ⟨hBase, _⟩ | hMiss
    · -- a range of this base would be the root
      have hBaseEq : r.base = c.base := hBase
      rcases List.mem_append.mp hr with hr | hr
      · have hLt := hLc r hr
        omega
      · rcases List.mem_cons.mp hr with rfl | hr
        · exact hNone ⟨r, List.mem_cons_self, hMeets⟩
        · have hLt := hRc r hr
          omega
    · exact hMiss hMeets.symm

end Compared

/-
  From a sound map, a sequence of calls stays sound exactly
  if every call notices its overlaps.
-/
theorem staysDisjoint_iff_from
    {map : RangeMap Bytes}
    (calls : List TaskCall)
    (hMap : map.Keeps 0)
    (hFits : ∀ c ∈ calls, c.Fits) :
    StaysDisjoint map calls ↔ AlwaysSeen map calls := by
  induction calls generalizing map with
  | nil =>
      exact ⟨fun _ => trivial,
        fun _ => keepsDisjoint_of_keeps hMap⟩
  | cons c rest ih =>
      have hHead := hFits c List.mem_cons_self
      have hRest : ∀ d ∈ rest, d.Fits :=
        fun d hd => hFits d (List.mem_cons_of_mem c hd)
      unfold StaysDisjoint AlwaysSeen
      by_cases hSeen : c.OverlapSeen map
      · rcases run_of_seen hMap hHead hSeen with
          ⟨map', range, hRun, hAll, hKeeps⟩ | ⟨map', hRun⟩
        · simp only [hRun]
          rw [← ih hKeeps hRest]
          constructor
          · intro h
            rcases h with ⟨_, _, hStays⟩
            exact ⟨hSeen, hStays⟩
          · intro h
            rcases h with ⟨_, hStays⟩
            exact ⟨keepsDisjoint_of_keeps hMap, hAll, hStays⟩
        · simp only [hRun]
          exact ⟨fun _ => ⟨hSeen, trivial⟩,
            fun _ => ⟨keepsDisjoint_of_keeps hMap, trivial⟩⟩
      · rcases run_of_hidden hMap hHead hSeen with
          ⟨hReturns, r, hr, hPartial⟩
        constructor
        · intro h
          rcases h with ⟨_, hCall⟩
          cases hRun : c.run map with
          | done map' range =>
              rw [hRun] at hCall
              exact absurd (hCall.1 r hr) hPartial
          | refused map' => exact absurd hRun (hReturns map')
          | fault =>
              rw [hRun] at hCall
              exact hCall.elim
        · intro h
          rcases h with ⟨hSeen', _⟩
          exact absurd hSeen' hSeen

/- A call of task 1 without data. -/
def plainCall (base size : Nat) : TaskCall where
  base := base
  size := size
  obj := none
  pprId := 1

/- Four ranges in increasing order, then one over the second. -/
def fiveCalls : List TaskCall :=
  [plainCall 10 5, plainCall 20 5, plainCall 30 5,
    plainCall 40 5, plainCall 18 10]

end Cbop
