import Cbop.Lib.Machine
import Cbop.RangeTree.Contains
import Mathlib.Logic.Function.Basic

/-
  A store of range maps under every operation of
  `range_tree/dtree.c` that rewrites one.

  The operations take their maps by name, so that an
  operation on two maps may be given the same one twice. The
  array that `map_to_array` fills is modelled here with its
  bounds: a write past the allocated entries is no result.
  Nodes are counted in natural numbers.

  Main declarations:
    * `mapToArrayAlloc`, `mapToArrayAlloc_eq`
    * `MapOp`, `mapStore`
    * `mapStore_wellFormed`
-/

namespace Cbop

variable {ρ : Type}

------------------------------------------------------------
-- Copying a Map Out
------------------------------------------------------------

/- `struct ta_t`. -/
structure TaT (ρ : Type) where
  ranges : List (MemRange ρ)
  size : Nat

/-
  `to_array_block`. `none` is a write past the end of the
  array.
-/
def toArrayBlock
    (rgs : Option (TaT ρ))
    (range : MemRange ρ) :
    Option (TaT ρ) := do
  let rgs ← rgs
  if rgs.size < rgs.ranges.length then
    some {
      ranges := rgs.ranges.set rgs.size range
      size := rgs.size + 1 }
  else
    none

/-
  `map_to_array`, with the array it allocates: `map->size`
  entries that `calloc` clears. The result is the array and
  the size reported for it.
-/
def mapToArrayAlloc
    (map : RangeMap ρ) :
    Option (List (MemRange ρ) × Nat) := do
  if map.size = 0 then
    some ([], 0)
  else
    let tmp ← mapInject map
      (some {
        ranges := List.replicate map.size (newNode 0 0 none)
        size := 0 })
      toArrayBlock
    some (tmp.ranges, map.size)

/- The traversal fills the array from the left. -/
theorem foldl_toArrayBlock
    (ranges filled rest : List (MemRange ρ))
    (hRoom : ranges.length ≤ rest.length) :
    ranges.foldl toArrayBlock
        (some ⟨filled ++ rest, filled.length⟩) =
      some ⟨filled ++ ranges ++ rest.drop ranges.length,
        filled.length + ranges.length⟩ := by
  induction ranges generalizing filled rest with
  | nil => simp
  | cons r ranges ih =>
      cases rest with
      | nil => simp at hRoom
      | cons cell rest =>
          have hBlock :
              toArrayBlock
                  (some ⟨filled ++ cell :: rest,
                    filled.length⟩) r =
                some ⟨(filled ++ [r]) ++ rest,
                  (filled ++ [r]).length⟩ := by
            simp [toArrayBlock]
          rw [List.foldl_cons, hBlock, ih (filled ++ [r]) rest
            (by simpa using hRoom)]
          simp
          omega

/-
  On a map that counts its nodes, `map_to_array` stays in
  its array and fills all of it.
-/
theorem mapToArrayAlloc_eq
    {map : RangeMap ρ}
    (hSize : map.size = map.ranges.length) :
    mapToArrayAlloc map = some (mapToArray map, map.size) := by
  unfold mapToArrayAlloc mapToArray
  by_cases hZero : map.size = 0
  · have hNil : map.ranges = [] := by
      apply List.eq_nil_of_length_eq_zero
      omega
    rw [if_pos hZero, hNil, hZero]
  · have hFill := foldl_toArrayBlock map.ranges []
      (List.replicate map.size (newNode 0 0 none))
      (by rw [List.length_replicate, hSize])
    rw [if_neg hZero, mapInject]
    simp only [List.nil_append, List.length_nil] at hFill
    rw [hFill, hSize]
    simp

------------------------------------------------------------
-- Operations by Name
------------------------------------------------------------

variable {κ : Type} [DecidableEq κ]

/- The operations on a store of maps. -/
inductive MapOp (κ ρ : Type) where
| addRange (map : κ) (base size : Nat) (obj : Option ρ)
| contains (map : κ) (addr : Nat)
| removeNode (map : κ) (nodeBase : Nat)
| clear (map : κ)
| union (base ref : κ)
| intersect (base ref : κ)
| subtract (base ref : κ)

/- The map an operation writes. -/
def MapOp.target : MapOp κ ρ → κ
| .addRange map _ _ _ => map
| .contains map _ => map
| .removeNode map _ => map
| .clear map => map
| .union base _ => base
| .intersect base _ => base
| .subtract base _ => base

/- What the operation makes of its target. -/
def MapOp.result
    (s : κ → RangeMap ρ) :
    MapOp κ ρ → Option (RangeMap ρ)
| .addRange map base size obj =>
    -- the assertion `size > 0`
    if 0 < size then
      some (mapAddRange (s map) base size obj)
    else
      none
| .contains map addr =>
    (mapContains (s map) addr).map Prod.fst
| .removeNode map nodeBase => mapRemoveNode (s map) nodeBase
| .clear map => some (mapClear (s map))
| .union base ref => some (mapUnion (s base) (s ref))
| .intersect base ref =>
    if base = ref then
      -- `map_clear` empties the reference with the base
      some (mapClear (s base))
    else
      mapIntersect (s base) (s ref)
| .subtract base ref => mapSubtract (s base) (s ref)

/-
  The calls considered: a range to add is not empty and ends
  in the address space, a node to remove is present.
-/
def MapOp.Allowed
    (s : κ → RangeMap ρ) :
    MapOp κ ρ → Prop
| .addRange _ base size _ => 0 < size ∧ base + size < 2 ^ 64
| .removeNode map nodeBase =>
    ∃ r ∈ (s map).ranges, r.base = nodeBase
| _ => True

instance
    (s : κ → RangeMap ρ)
    (op : MapOp κ ρ) :
    Decidable (op.Allowed s) :=
  match op with
  | .addRange _ base size _ =>
      inferInstanceAs
        (Decidable (0 < size ∧ base + size < 2 ^ 64))
  | .removeNode map nodeBase =>
      inferInstanceAs
        (Decidable (∃ r ∈ (s map).ranges, r.base = nodeBase))
  | .contains _ _ => .isTrue trivial
  | .clear _ => .isTrue trivial
  | .union _ _ => .isTrue trivial
  | .intersect _ _ => .isTrue trivial
  | .subtract _ _ => .isTrue trivial

/- A store of maps, all of them empty at the start. -/
def mapStore
    (κ ρ : Type)
    [DecidableEq κ] :
    Machine (κ → RangeMap ρ) (MapOp κ ρ) where
  start := fun _ => initEmptyMap
  step s op :=
    (op.result s).map (Function.update s op.target)

------------------------------------------------------------
-- Every Operation Keeps Maps Well Formed
------------------------------------------------------------

theorem mapUnion_wellFormed
    {base ref : RangeMap ρ}
    (hBase : base.WellFormed)
    (hRef : ref.WellFormed) :
    (mapUnion base ref).WellFormed := by
  have hValid := hRef.apart.valid
  unfold mapUnion mapToArray
  generalize ref.ranges = ranges at hValid
  induction ranges generalizing base with
  | nil => exact hBase
  | cons r ranges ih =>
      have hR : r.Valid := hValid r List.mem_cons_self
      rw [List.foldl_cons]
      apply ih
      · exact (mapAddRange_spec r.record hBase hR.pos
          hR.fits).1
      · intro q hq
        exact hValid q (List.mem_cons_of_mem _ hq)

/- An allowed call returns and leaves its target sound. -/
theorem MapOp.result_wellFormed
    {s : κ → RangeMap ρ}
    (hMaps : ∀ map, (s map).WellFormed)
    (op : MapOp κ ρ)
    (hAllowed : op.Allowed s) :
    ∃ map', op.result s = some map' ∧ map'.WellFormed := by
  cases op with
  | addRange map base size obj =>
      rcases hAllowed with ⟨hSize, hFits⟩
      refine ⟨_, if_pos hSize, ?_⟩
      exact (mapAddRange_spec obj (hMaps map) hSize hFits).1
  | contains map addr =>
      rcases mapContains_spec (hMaps map).apart addr with
        ⟨map', found, hLookup⟩
      refine ⟨map', ?_, ?_⟩
      · simp [MapOp.result, hLookup.call]
      · exact keeps_of_ranges (hMaps map) hLookup.ranges_eq
          hLookup.size_eq
  | removeNode map nodeBase =>
      rcases hAllowed with ⟨r, hr, rfl⟩
      rcases List.append_of_mem hr with
        ⟨before, after, hSplit⟩
      rcases mapRemoveNode_spec (hMaps map) hSplit with
        ⟨map', hRemove, _, hWell⟩
      exact ⟨map', hRemove, hWell⟩
  | clear map =>
      exact ⟨_, rfl, (mapClear_spec (s map)).1⟩
  | union base ref =>
      exact ⟨_, rfl,
        mapUnion_wellFormed (hMaps base) (hMaps ref)⟩
  | intersect base ref =>
      by_cases hSame : base = ref
      · exact ⟨_, if_pos hSame, (mapClear_spec (s base)).1⟩
      · rcases mapIntersect_spec (hMaps base) (hMaps ref) with
          ⟨map', hMap', hWell, _⟩
        refine ⟨map', ?_, hWell⟩
        simp only [MapOp.result, if_neg hSame, hMap']
  | subtract base ref =>
      rcases mapSubtract_spec (hMaps base) (hMaps ref) with
        ⟨map', hMap', hWell, _⟩
      exact ⟨map', hMap', hWell⟩

/- Every map of every store reached is well formed. -/
theorem mapStore_keeps
    {s : κ → RangeMap ρ}
    (hReach : (mapStore κ ρ).Reachable
      (fun s op => op.Allowed s) s) :
    ∀ map, (s map).WellFormed := by
  apply hReach.invariant (fun s => ∀ map, (s map).WellFormed)
  · intro map
    exact keeps_initEmptyMap 1
  · intro s op s' _ hMaps hAllowed hStep map
    rcases op.result_wellFormed hMaps hAllowed with
      ⟨map', hResult, hWell⟩
    simp only [mapStore, hResult, Option.map_some,
      Option.some.injEq] at hStep
    rw [← hStep]
    by_cases hTarget : map = op.target
    · rw [hTarget, Function.update_self]
      exact hWell
    · rw [Function.update_of_ne hTarget]
      exact hMaps map

/-
  In every store reached by allowed calls every map is a
  search tree of non-empty ranges with an uncovered byte
  between any two, counts its nodes and is copied out in
  increasing order into exactly the entries allocated for
  it. Every further allowed call returns.
-/
theorem mapStore_wellFormed
    {s : κ → RangeMap ρ}
    (hReach : (mapStore κ ρ).Reachable
      (fun s op => op.Allowed s) s) :
    (∀ map,
      BinTree.Ordered MemRange.base (s map).root ∧
      (∀ r ∈ (s map).ranges, 0 < r.size) ∧
      (s map).ranges.Pairwise
        (fun q r => q.base + q.size < r.base) ∧
      (s map).size = (s map).ranges.length ∧
      ∃ ranges, mapToArrayAlloc (s map) =
          some (ranges, (s map).size) ∧
        ranges = (s map).ranges ∧
        ranges.length = (s map).size ∧
        ranges.Pairwise (fun q r => q.base < r.base)) ∧
    (∀ op : MapOp κ ρ, op.Allowed s →
      ∃ s', (mapStore κ ρ).step s op = some s') := by
  have hMaps := mapStore_keeps hReach
  constructor
  · intro map
    have hMap := hMaps map
    refine ⟨hMap.apart.ordered, ?_, ?_, hMap.size_eq,
      mapToArray (s map), mapToArrayAlloc_eq hMap.size_eq,
      rfl, hMap.size_eq.symm, hMap.apart.ordered⟩
    · intro r hr
      exact (hMap.apart.valid r hr).pos
    · apply hMap.apart.order.imp
      intro q r hLe
      omega
  · intro op hAllowed
    rcases op.result_wellFormed hMaps hAllowed with
      ⟨map', hResult, _⟩
    refine ⟨Function.update s op.target map', ?_⟩
    simp only [mapStore, hResult, Option.map_some]

/-
  Two maps: a range is added to each, the second is
  subtracted from the first, and a node of the first is
  removed.
-/
theorem mapStore_wellFormed_removed :
    ∃ s, (mapStore Bool Unit).Reachable
        (fun s op => op.Allowed s) s ∧
      (s true).ranges.map MemRange.base = [30] ∧
      (s true).size = (s true).ranges.length := by
  rcases (mapStore Bool Unit).exists_reachable_of_run
      (fun s op => op.Allowed s)
      (fun s op => decide (op.Allowed s))
      (fun s op h => of_decide_eq_true h)
      [.addRange true 10 30 none,
        .addRange false 20 10 none,
        .subtract true false,
        .removeNode true 10]
      (fun s => (s true).ranges.map MemRange.base = [30])
      (by decide) with
    ⟨s, hReach, hBases⟩
  refine ⟨s, hReach, of_decide_eq_true hBases, ?_⟩
  exact ((mapStore_wellFormed hReach).1 true).2.2.2.1

end Cbop
