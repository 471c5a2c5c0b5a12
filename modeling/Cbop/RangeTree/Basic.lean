import Cbop.Lib.BinTree
import Mathlib.Algebra.Group.Nat.Defs

/-
  The range tree of `range_tree/dtree.c`: address ranges
  kept in a splay tree ordered by base address.

  Addresses and sizes are 64-bit machine words, written as
  natural numbers; every sum and difference the source takes
  of them wraps, here as `addrAdd` and `addrSub`. A node is
  modelled by its value, so the pointer surgery of the
  source becomes the building of a new tree. Allocation, the
  map's name and its memory space are left out.

  Main declarations:
    * `MemRange`, `RangeMap`
    * `splay`, `overlap`, `absorbLeft`, `absorbRight`
    * `mapAddRange`, `mapOverlaps`, `mapContains`
    * `mapIntersect`, `mapUnion`, `mapSubtract`
-/

namespace Cbop

------------------------------------------------------------
-- Machine Words
------------------------------------------------------------

/- Addition of two 64-bit words. -/
def addrAdd (a b : Nat) : Nat :=
  (a + b) % 2 ^ 64

/- Subtraction of two 64-bit words. -/
def addrSub (a b : Nat) : Nat :=
  (a + (2 ^ 64 - b)) % 2 ^ 64

theorem addrAdd_of_lt
    {a b : Nat}
    (h : a + b < 2 ^ 64) :
    addrAdd a b = a + b :=
  Nat.mod_eq_of_lt h

theorem addrSub_of_le
    {a b : Nat}
    (hLe : b ≤ a)
    (hLt : a < 2 ^ 64) :
    addrSub a b = a - b := by
  unfold addrSub
  omega

------------------------------------------------------------
-- Ranges and Maps
------------------------------------------------------------

/-
  `mem_range_t`: `size` bytes from `base`, with an optional
  data record and the index of the task they came from.
-/
structure MemRange (ρ : Type) where
  base : Nat
  size : Nat
  record : Option ρ
  task : Nat
deriving DecidableEq, Repr

/- `range_node_t *`, with `NULL` as the empty tree. -/
abbrev RangeNode (ρ : Type) := BinTree (MemRange ρ)

/- `map_t`. -/
structure RangeMap (ρ : Type) where
  isHash : Bool
  root : RangeNode ρ
  size : Nat
deriving DecidableEq, Repr

variable {ρ : Type}

/- `init_empty_map`. -/
def initEmptyMap : RangeMap ρ where
  isHash := false
  root := .nil
  size := 0

/- `new_node`: `calloc` leaves the task index at zero. -/
def newNode
    (base size : Nat)
    (obj : Option ρ) :
    MemRange ρ where
  base := base
  size := size
  record := obj
  task := 0

/- `base + size`, as the source computes it. -/
def MemRange.bound (r : MemRange ρ) : Nat :=
  addrAdd r.base r.size

/- The ranges of a map in the order of a traversal. -/
def RangeMap.ranges (map : RangeMap ρ) :
    List (MemRange ρ) :=
  map.root.toList

------------------------------------------------------------
-- Splaying and Overlap
------------------------------------------------------------

/- `splay`, the library's descent on base addresses. -/
def splay
    (t : RangeNode ρ)
    (key : Nat) :
    RangeNode ρ :=
  BinTree.splay MemRange.base t key

/-
  `overlap`: base and size of the common part of two ranges,
  `none` where the source returns false.
-/
def overlap (b r : MemRange ρ) : Option (Nat × Nat) :=
  if b.base ≤ r.base then
    if b.bound > r.base then
      if b.bound ≤ r.bound then
        some (r.base, addrSub b.bound r.base)
      else
        some (r.base, r.size)
    else
      none
  else
    if r.bound > b.base then
      if r.bound ≤ b.bound then
        some (b.base, addrSub r.bound b.base)
      else
        some (b.base, b.size)
    else
      none

/- `union_ranges`: base and size of the hull of two ranges. -/
def unionRanges (r1 r2 : MemRange ρ) : Nat × Nat :=
  let ubase := min r1.base r2.base
  (ubase, addrSub (max r1.bound r2.bound) ubase)

------------------------------------------------------------
-- Insertion
------------------------------------------------------------

/- `free_subtree`, by its effect on the map's node count. -/
def freeSubtree : RangeNode ρ → Nat → Nat
| .nil, size => size
| .node lc _ rc, size =>
    freeSubtree rc (freeSubtree lc size) - 1

/-
  `absorb_left`: the subtree that stays, the grown range and
  the map's node count.
-/
def absorbLeft :
    RangeNode ρ → MemRange ρ → Nat →
      RangeNode ρ × MemRange ρ × Nat
| .nil, range, size => (.nil, range, size)
| .node lc r rc, range, size =>
    if range.base > r.bound then
      let (rc', range', size') := absorbLeft rc range size
      (.node lc r rc', range', size')
    else
      let base' := min r.base range.base
      let range' :=
        { range with
          base := base'
          size := addrSub range.bound base' }
      -- the node goes with its right subtree
      absorbLeft lc range'
        (freeSubtree (.node .nil r rc) size)

/- `absorb_right`. -/
def absorbRight :
    RangeNode ρ → MemRange ρ → Nat →
      RangeNode ρ × MemRange ρ × Nat
| .nil, range, size => (.nil, range, size)
| .node lc r rc, range, size =>
    if range.bound < r.base then
      let (lc', range', size') := absorbRight lc range size
      (.node lc' r rc, range', size')
    else
      let range' :=
        { range with
          size :=
            addrSub (max range.bound r.bound) range.base }
      -- the node goes with its left subtree
      absorbRight rc range'
        (freeSubtree (.node lc r .nil) size)

/- The variable `bordering` of `map_add_range`. -/
def bordering (n top : MemRange ρ) : Bool :=
  if n.base < top.base then
    n.bound = top.base
  else
    top.bound = n.base

/-
  `map_add_range`. The range it returns a pointer to is the
  root of the resulting map. The assertion `size > 0` is the
  caller's duty.
-/
def mapAddRange
    (map : RangeMap ρ)
    (base size : Nat)
    (obj : Option ρ) :
    RangeMap ρ :=
  let n := newNode base size obj
  match splay map.root base with
  | .nil =>
      { map with root := .node .nil n .nil, size := 1 }
  | .node lc top rc =>
      if (overlap n top).isSome || bordering n top then
        let (ubase, usize) := unionRanges n top
        let (lc', left, size') :=
          absorbLeft lc
            { top with base := ubase, size := usize }
            map.size
        let (rc', range, size'') :=
          absorbRight rc left size'
        { map with root := .node lc' range rc'
                   size := size'' }
      else if base < top.base then
        let (lc', range, size') :=
          absorbLeft lc n (map.size + 1)
        { map with root := .node lc' range
                     (.node .nil top rc)
                   size := size' }
      else if base > top.base then
        let (rc', range, size') :=
          absorbRight rc n (map.size + 1)
        { map with root := .node (.node lc top .nil)
                     range rc'
                   size := size' }
      else
        { map with root := .node lc top rc }

------------------------------------------------------------
-- Lookup
------------------------------------------------------------

/- `subtree_size`. -/
def subtreeSize : RangeNode ρ → Nat
| .nil => 0
| .node lc r rc =>
    addrAdd (addrAdd r.size (subtreeSize lc))
      (subtreeSize rc)

/- `map_size_in_bytes`. -/
def mapSizeInBytes (map : RangeMap ρ) : Nat :=
  subtreeSize map.root

/- `subtree_overlaps`. -/
def subtreeOverlaps :
    RangeNode ρ → MemRange ρ → Option (Nat × Nat)
| .nil, _ => none
| .node lc r rc, inp =>
    if r.bound ≤ inp.base then
      subtreeOverlaps rc inp
    else if r.base > inp.bound then
      subtreeOverlaps lc inp
    else if r.base > inp.base then
      -- the part of the input below this node comes first
      let head :=
        { inp with size := addrSub r.base inp.base }
      match subtreeOverlaps lc head with
      | some found => some found
      | none => overlap r inp
    else
      overlap r inp

/- `map_overlaps`: the smallest overlap with the input. -/
def mapOverlaps
    (map : RangeMap ρ)
    (inp : MemRange ρ) :
    Option (Nat × Nat) :=
  subtreeOverlaps map.root inp

/- The last node on the right spine. -/
def rightmost : RangeNode ρ → Option (MemRange ρ)
| .nil => none
| .node _ r .nil => some r
| .node _ _ (.node lc r rc) => rightmost (.node lc r rc)

/-
  `map_contains`: the re-rooted map and the range found.
  `none` is a failed assertion.
-/
def mapContains
    (map : RangeMap ρ)
    (addr : Nat) :
    Option (RangeMap ρ × Option (MemRange ρ)) :=
  match splay map.root addr with
  | .nil => some (map, none)
  | .node lc top rc =>
      let map' := { map with root := .node lc top rc }
      if addr < top.base then
        match rightmost lc with
        | none => some (map', none)
        | some node =>
            if node.base ≤ addr then
              if node.bound > addr then
                some (map', some node)
              else
                some (map', none)
            else
              none
      else if top.bound > addr then
        some (map', some top)
      else
        some (map', none)

------------------------------------------------------------
-- Traversals and Set Operations
------------------------------------------------------------

/-
  `map_to_array`: the traversal copied out. The source
  allocates `map->size` entries for it.
-/
def mapToArray (map : RangeMap ρ) : List (MemRange ρ) :=
  map.ranges

/- `map_inject`: fold a function over the ranges in order. -/
def mapInject
    {σ : Type}
    (map : RangeMap ρ)
    (sum : σ)
    (func : σ → MemRange ρ → σ) :
    σ :=
  map.ranges.foldl func sum

/- `map_clear`. -/
def mapClear (map : RangeMap ρ) : RangeMap ρ :=
  { map with root := .nil, size := 0 }

/-
  The inner loop of `map_intersect`: add the parts of one
  range that the reference map covers. `none` is an
  exhausted loop bound.
-/
def intersectRange
    (ref : RangeMap ρ) :
    Nat → MemRange ρ → RangeMap ρ → Option (RangeMap ρ)
| 0, _, _ => none
| fuel + 1, range, base =>
    match mapOverlaps ref range with
    | none => some base
    | some (obase, osize) =>
        let base' :=
          mapAddRange base obase osize range.record
        let next := addrAdd obase osize
        let range' :=
          { range with
            base := next
            size := addrSub range.bound next }
        if range'.size = 0 then
          some base'
        else
          intersectRange ref fuel range' base'

/-
  `map_intersect`. A range of `size` bytes has at most
  `size` overlaps, which bounds the inner loop.
-/
def mapIntersect
    (base ref : RangeMap ρ) :
    Option (RangeMap ρ) :=
  if base.root.isNil then
    some base
  else if ref.root.isNil then
    some (mapClear base)
  else
    (mapToArray base).foldlM
      (fun acc range =>
        intersectRange ref (range.size + 1) range acc)
      (mapClear base)

/- `map_union`. -/
def mapUnion
    (base ref : RangeMap ρ) :
    RangeMap ρ :=
  (mapToArray ref).foldl
    (fun acc range =>
      mapAddRange acc range.base range.size range.record)
    base

/- `map_clone`. -/
def mapClone (source : RangeMap ρ) : RangeMap ρ :=
  mapUnion initEmptyMap source

/-
  The inner loop of `map_subtract`: add the parts of one
  range that the overlap map does not cover.
-/
def subtractRange
    (copy : RangeMap ρ) :
    Nat → MemRange ρ → RangeMap ρ → Option (RangeMap ρ)
| 0, _, _ => none
| fuel + 1, range, base =>
    match mapOverlaps copy range with
    | none =>
        if range.size = 0 then
          some base
        else
          some (mapAddRange base range.base range.size
            range.record)
    | some (obase, osize) =>
        let base' :=
          if obase > range.base then
            mapAddRange base range.base
              (addrSub obase range.base) range.record
          else
            base
        let next := addrAdd obase osize
        let range' :=
          { range with
            base := next
            size := addrSub range.bound next }
        if range'.size = 0 then
          some base'
        else
          subtractRange copy fuel range' base'

/- `map_subtract`. -/
def mapSubtract
    (base ref : RangeMap ρ) :
    Option (RangeMap ρ) :=
  if ref.root.isNil then
    some base
  else if base.root.isNil then
    some base
  else do
    let copy ← mapIntersect (mapUnion initEmptyMap base) ref
    (mapToArray base).foldlM
      (fun acc range =>
        subtractRange copy (range.size + 1) range acc)
      (mapClear base)

end Cbop
