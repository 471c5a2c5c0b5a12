import Cbop.Lib.Runs
import Cbop.RangeTree.Overlaps
import Cbop.RangeTree.Store
import Mathlib.Order.Interval.Set.Nat

/-
  A store of range maps is a store of sets of addresses.

  Each operation of `range_tree/dtree.c` does to the
  addresses a map covers what its name says, and what the
  map answers is determined by these addresses alone: its
  ranges are their runs.

  Main declarations:
    * `mapSizeInBytes_eq`
    * `range_isRun`, `mem_bases_iff`
    * `SetOp`, `setStore`
    * `MapOp.Sound`, `MapOp.result_covered`
    * `Answers`
    * `mapStore_refines`
-/

namespace Cbop

variable {ρ : Type}

------------------------------------------------------------
-- Counting Bytes
------------------------------------------------------------

/- Valid ranges stay below the end of the address space. -/
theorem covered_subset_space
    {ranges : List (MemRange ρ)}
    (hValid : ∀ r ∈ ranges, r.Valid) :
    covered ranges ⊆ Set.Ico 0 (2 ^ 64 - 1) := by
  intro a ha
  rcases ha with ⟨r, hr, hMem⟩
  rw [MemRange.mem_addrs] at hMem
  have hFits := (hValid r hr).fits
  exact ⟨Nat.zero_le a, by omega⟩

theorem covered_finite
    {ranges : List (MemRange ρ)}
    (hValid : ∀ r ∈ ranges, r.Valid) :
    (covered ranges).Finite :=
  (Set.finite_Ico 0 (2 ^ 64 - 1)).subset
    (covered_subset_space hValid)

/- Around one of its ranges a map counts in three parts. -/
theorem ncard_covered_split
    {gap : Nat}
    {left right : List (MemRange ρ)}
    {r : MemRange ρ}
    (h : Apart gap (left ++ r :: right)) :
    (covered (left ++ r :: right)).ncard =
      (covered left).ncard + (r.size +
        (covered right).ncard) := by
  rw [Apart.split_iff] at h
  rcases h with ⟨hLeft, hR, hRight, hBefore, hAfter⟩
  have hPos := hR.pos
  have hRest : Disjoint r.addrs (covered right) := by
    rw [Set.disjoint_left]
    intro a ha hOther
    rcases hOther with ⟨s, hs, hMem⟩
    have hLe := hAfter s hs
    rw [MemRange.mem_addrs] at ha hMem
    omega
  have hBelow :
      Disjoint (covered left) (r.addrs ∪ covered right) := by
    rw [Set.disjoint_left]
    intro a ha hOther
    rcases ha with ⟨q, hq, hQ⟩
    have hLe := hBefore q hq
    rw [MemRange.mem_addrs] at hQ
    rcases hOther with hMem | ⟨s, hs, hMem⟩
    · rw [MemRange.mem_addrs] at hMem
      omega
    · have hNext := hAfter s hs
      rw [MemRange.mem_addrs] at hMem
      omega
  have hLeftFinite := covered_finite hLeft.valid
  have hRightFinite := covered_finite hRight.valid
  have hSelfFinite : r.addrs.Finite := Set.finite_Ico _ _
  have hSelf : r.addrs.ncard = r.size := by
    rw [MemRange.addrs, Set.ncard_Ico_nat]
    omega
  rw [covered_append, covered_cons,
    Set.ncard_union_eq hBelow hLeftFinite
      (hSelfFinite.union hRightFinite),
    Set.ncard_union_eq hRest hSelfFinite hRightFinite,
    hSelf]

/- The sum of the sizes does not wrap. -/
theorem subtreeSize_eq
    {gap : Nat}
    {t : RangeNode ρ}
    (h : Apart gap t.toList) :
    subtreeSize t = (covered t.toList).ncard := by
  induction t with
  | nil => simp [subtreeSize]
  | node lc r rc ihl ihr =>
      rw [BinTree.toList_node] at h ⊢
      have hParts := Apart.split_iff.mp h
      have hCount := ncard_covered_split h
      have hSpace :
          (covered (lc.toList ++ r :: rc.toList)).ncard ≤
            2 ^ 64 - 1 := by
        have hLe := Set.ncard_le_ncard
          (covered_subset_space h.valid)
          (Set.finite_Ico 0 (2 ^ 64 - 1))
        rwa [Set.ncard_Ico_nat] at hLe
      have hInner :
          addrAdd r.size (covered lc.toList).ncard =
            r.size + (covered lc.toList).ncard :=
        addrAdd_of_lt (by omega)
      rw [subtreeSize, ihl hParts.1, ihr hParts.2.2.1,
        hInner, addrAdd_of_lt (by omega), hCount]
      omega

/- `map_size_in_bytes` is the number of bytes covered. -/
theorem mapSizeInBytes_eq
    {gap : Nat}
    {map : RangeMap ρ}
    (h : Apart gap map.ranges) :
    mapSizeInBytes map = map.covered.ncard :=
  subtreeSize_eq h

------------------------------------------------------------
-- Ranges as Runs
------------------------------------------------------------

/- The ranges of a well-formed map are the runs it covers. -/
theorem range_isRun
    {ranges : List (MemRange ρ)}
    {r : MemRange ρ}
    (h : Apart 1 ranges)
    (hr : r ∈ ranges) :
    IsRun (covered ranges) r.base (r.base + r.size) := by
  rcases List.append_of_mem hr with ⟨left, right, rfl⟩
  have hParts := h
  rw [Apart.split_iff] at hParts
  rcases hParts with ⟨hLeft, hR, hRight, hBefore, hAfter⟩
  have hPos := hR.pos
  refine ⟨by omega, ?_, ?_, ?_⟩
  · intro a ha
    exact ⟨r, hr, ha⟩
  · intro b hb hCovered
    rcases hCovered with ⟨s, hs, hMem⟩
    rw [MemRange.mem_addrs] at hMem
    rcases List.mem_append.mp hs with hs | hs
    · have hLe := hBefore s hs
      omega
    · rcases List.mem_cons.mp hs with rfl | hs
      · omega
      · have hLe := hAfter s hs
        omega
  · intro hCovered
    rcases hCovered with ⟨s, hs, hMem⟩
    rw [MemRange.mem_addrs] at hMem
    rcases List.mem_append.mp hs with hs | hs
    · have hLe := hBefore s hs
      omega
    · rcases List.mem_cons.mp hs with rfl | hs
      · omega
      · have hLe := hAfter s hs
        omega

/- The bases of the ranges are the starts of the runs. -/
theorem mem_bases_iff
    {ranges : List (MemRange ρ)}
    {a : Nat}
    (h : Apart 1 ranges) :
    a ∈ ranges.map MemRange.base ↔
      a ∈ runStarts (covered ranges) := by
  rw [List.mem_map]
  constructor
  · intro hBase
    rcases hBase with ⟨r, hr, rfl⟩
    exact (range_isRun h hr).start_mem
  · intro hStart
    rcases hStart.1 with ⟨r, hr, ha⟩
    exact ⟨r, hr, ((range_isRun h hr).eq_start ha hStart).symm⟩

/- Taking out a range takes out its run and nothing else. -/
theorem covered_remove
    {left right : List (MemRange ρ)}
    {r : MemRange ρ}
    (h : Apart 1 (left ++ r :: right)) :
    covered (left ++ right) =
      covered (left ++ r :: right) \
        (covered (left ++ r :: right)).ordConnectedComponent
          r.base := by
  have hRun := range_isRun h (r := r) (by simp)
  have hBase : r.base ∈ Set.Ico r.base (r.base + r.size) :=
    ⟨Nat.le_refl _, hRun.lt⟩
  rw [hRun.component hBase]
  rw [Apart.split_iff] at h
  rcases h with ⟨hLeft, hR, hRight, hBefore, hAfter⟩
  have hApart :
      ∀ s ∈ left ++ right, Disjoint s.addrs r.addrs := by
    intro s hs
    rw [Set.disjoint_left]
    intro a ha hOther
    rw [MemRange.mem_addrs] at ha hOther
    rcases List.mem_append.mp hs with hs | hs
    · have hLe := hBefore s hs
      omega
    · have hLe := hAfter s hs
      omega
  ext a
  constructor
  · intro ha
    rcases ha with ⟨s, hs, hMem⟩
    refine ⟨⟨s, ?_, hMem⟩, ?_⟩
    · rcases List.mem_append.mp hs with hs | hs <;> simp [hs]
    · exact Set.disjoint_left.mp (hApart s hs) hMem
  · intro ha
    rcases ha with ⟨⟨s, hs, hMem⟩, hOff⟩
    refine ⟨s, ?_, hMem⟩
    rcases List.mem_append.mp hs with hs | hs
    · simp [hs]
    · rcases List.mem_cons.mp hs with rfl | hs
      · exact absurd hMem hOff
      · simp [hs]

------------------------------------------------------------
-- A Store of Sets
------------------------------------------------------------

variable {κ : Type}

/- The operations on a store of sets of addresses. -/
inductive SetOp (κ : Type) where
| add (set : κ) (base size : Nat)
| lookup (set : κ)
| removeRun (set : κ) (addr : Nat)
| clear (set : κ)
| union (left right : κ)
| inter (left right : κ)
| diff (left right : κ)

/- The set an operation writes. -/
def SetOp.target : SetOp κ → κ
| .add set _ _ => set
| .lookup set => set
| .removeRun set _ => set
| .clear set => set
| .union left _ => left
| .inter left _ => left
| .diff left _ => left

/- What the operation makes of its target. -/
def SetOp.result
    (s : κ → Set Nat) :
    SetOp κ → Set Nat
| .add set base size => s set ∪ Set.Ico base (base + size)
| .lookup set => s set
| .removeRun set addr =>
    s set \ (s set).ordConnectedComponent addr
| .clear _ => ∅
| .union left right => s left ∪ s right
| .inter left right => s left ∩ s right
| .diff left right => s left \ s right

/- A store of sets, all of them empty at the start. -/
def setStore
    (κ : Type)
    [DecidableEq κ] :
    Machine (κ → Set Nat) (SetOp κ) where
  start := fun _ => ∅
  step s op :=
    some (Function.update s op.target (op.result s))

/- The operation on sets a call is meant to be. -/
def MapOp.onSets : MapOp κ ρ → SetOp κ
| .addRange map base size _ => .add map base size
| .contains map _ => .lookup map
| .removeNode map nodeBase => .removeRun map nodeBase
| .clear map => .clear map
| .union base ref => .union base ref
| .intersect base ref => .inter base ref
| .subtract base ref => .diff base ref

theorem MapOp.target_onSets
    (op : MapOp κ ρ) :
    op.onSets.target = op.target := by
  cases op <;> rfl

/- The addresses each map of a store covers. -/
def coveredSets (s : κ → RangeMap ρ) : κ → Set Nat :=
  fun map => (s map).covered

------------------------------------------------------------
-- Sound Calls
------------------------------------------------------------

variable [DecidableEq κ]

/- Every insertion of a union finds its root in place. -/
def UnionHolds (base : RangeMap ρ) :
    List (MemRange ρ) → Prop
| [] => True
| r :: rest =>
    RootHolds base r.base r.size ∧
      UnionHolds (mapAddRange base r.base r.size r.record)
        rest

instance UnionHolds.decidable :
    (ranges : List (MemRange ρ)) →
      (base : RangeMap ρ) →
        Decidable (UnionHolds base ranges)
| [], _ => .isTrue trivial
| r :: rest, base =>
    have := UnionHolds.decidable rest
      (mapAddRange base r.base r.size r.record)
    inferInstanceAs
      (Decidable (RootHolds base r.base r.size ∧
        UnionHolds _ rest))

/-
  The insertions a call makes find their root in place, and
  a map is not intersected with itself: `map_intersect`
  empties it before it reads the reference.
-/
def MapOp.Sound
    (s : κ → RangeMap ρ) :
    MapOp κ ρ → Prop
| .addRange map base size _ => RootHolds (s map) base size
| .union base ref => UnionHolds (s base) (s ref).ranges
| .intersect base ref => base ≠ ref
| _ => True

instance
    (s : κ → RangeMap ρ)
    (op : MapOp κ ρ) :
    Decidable (op.Sound s) :=
  match op with
  | .addRange map base size _ =>
      inferInstanceAs
        (Decidable (RootHolds (s map) base size))
  | .union base ref =>
      inferInstanceAs
        (Decidable (UnionHolds (s base) (s ref).ranges))
  | .intersect base ref =>
      inferInstanceAs (Decidable (base ≠ ref))
  | .contains _ _ => .isTrue trivial
  | .removeNode _ _ => .isTrue trivial
  | .clear _ => .isTrue trivial
  | .subtract _ _ => .isTrue trivial

theorem mapUnion_covered
    {base ref : RangeMap ρ}
    (hBase : base.WellFormed)
    (hRef : ref.WellFormed)
    (hHolds : UnionHolds base ref.ranges) :
    (mapUnion base ref).covered =
      base.covered ∪ ref.covered := by
  have hValid := hRef.apart.valid
  unfold mapUnion mapToArray
  change _ = base.covered ∪ covered ref.ranges
  generalize ref.ranges = ranges at hValid hHolds ⊢
  induction ranges generalizing base with
  | nil => simp
  | cons r ranges ih =>
      have hR : r.Valid := hValid r List.mem_cons_self
      rcases hHolds with ⟨hRoot, hRest⟩
      have hAdd :=
        mapAddRange_spec r.record hBase hR.pos hR.fits
      rw [List.foldl_cons, ih hAdd.1 ?_ hRest,
        hAdd.2.mpr hRoot, covered_cons, Set.union_assoc]
      · rfl
      · intro q hq
        exact hValid q (List.mem_cons_of_mem _ hq)

/- A sound call does to its set what its name says. -/
theorem MapOp.result_covered
    {s : κ → RangeMap ρ}
    {map' : RangeMap ρ}
    (hMaps : ∀ map, (s map).WellFormed)
    (op : MapOp κ ρ)
    (hAllowed : op.Allowed s)
    (hSound : op.Sound s)
    (hResult : op.result s = some map') :
    map'.covered = op.onSets.result (coveredSets s) := by
  cases op with
  | addRange map base size obj =>
      rcases hAllowed with ⟨hSize, hFits⟩
      rw [MapOp.result, if_pos hSize,
        Option.some.injEq] at hResult
      rw [← hResult]
      exact (mapAddRange_spec obj (hMaps map) hSize
        hFits).2.mpr hSound
  | contains map addr =>
      rcases mapContains_spec (hMaps map).apart addr with
        ⟨top, found, hLookup⟩
      simp only [MapOp.result, hLookup.call,
        Option.map_some, Option.some.injEq] at hResult
      rw [← hResult]
      change covered top.ranges = _
      rw [hLookup.ranges_eq]
      rfl
  | removeNode map nodeBase =>
      rcases hAllowed with ⟨r, hr, rfl⟩
      rcases List.append_of_mem hr with
        ⟨before, after, hSplit⟩
      rcases mapRemoveNode_spec (hMaps map) hSplit with
        ⟨rest, hRemove, hRanges, -⟩
      have hApart := (hMaps map).apart
      rw [hSplit] at hApart
      rw [MapOp.result, hRemove,
        Option.some.injEq] at hResult
      rw [← hResult]
      change covered rest.ranges =
        covered (s map).ranges \
          (covered (s map).ranges).ordConnectedComponent
            r.base
      rw [hRanges, hSplit]
      exact covered_remove hApart
  | clear map =>
      rw [MapOp.result, Option.some.injEq] at hResult
      rw [← hResult]
      exact (mapClear_spec (s map)).2
  | union base ref =>
      rw [MapOp.result, Option.some.injEq] at hResult
      rw [← hResult]
      exact mapUnion_covered (hMaps base) (hMaps ref) hSound
  | intersect base ref =>
      rcases mapIntersect_spec (hMaps base) (hMaps ref) with
        ⟨both, hBoth, -, hCovered⟩
      rw [MapOp.result, if_neg hSound, hBoth,
        Option.some.injEq] at hResult
      rw [← hResult]
      exact hCovered
  | subtract base ref =>
      rcases mapSubtract_spec (hMaps base) (hMaps ref) with
        ⟨rest, hRest, -, hCovered⟩
      rw [MapOp.result, hRest, Option.some.injEq] at hResult
      rw [← hResult]
      exact hCovered

------------------------------------------------------------
-- Answers
------------------------------------------------------------

/-
  What a map that stands for the set `S` answers: lookups
  find runs, a search finds the lowest common byte, the
  array lists the runs in order, the size counts bytes.
-/
structure Answers
    (map : RangeMap ρ)
    (S : Set Nat) : Prop where
  lookup : ∀ addr, ∃ map' found,
    mapContains map addr = some (map', found) ∧
      (found.isSome = true ↔ addr ∈ S) ∧
      ∀ r, found = some r →
        r.addrs = S.ordConnectedComponent addr
  overlaps : ∀ inp : MemRange ρ, inp.Valid →
    ((mapOverlaps map inp).isSome = true ↔
      (inp.addrs ∩ S).Nonempty)
  first : ∀ (inp : MemRange ρ) obase osize, inp.Valid →
    mapOverlaps map inp = some (obase, osize) →
      IsLeast (inp.addrs ∩ S) obase ∧
        Set.Ico obase (obase + osize) =
          inp.addrs ∩ S.ordConnectedComponent obase
  array : mapToArrayAlloc map =
    some (mapToArray map, map.size)
  starts : ((mapToArray map).map MemRange.base).Pairwise
      (fun a b => a < b) ∧
    ∀ a, a ∈ (mapToArray map).map MemRange.base ↔
      a ∈ runStarts S
  runs : ∀ r ∈ mapToArray map,
    r.addrs = S.ordConnectedComponent r.base
  bytes : mapSizeInBytes map = S.ncard

/- A lookup finds the run around the address. -/
theorem lookup_of_apart
    {map : RangeMap ρ}
    (h : Apart 1 map.ranges)
    (addr : Nat) :
    ∃ map' found,
      mapContains map addr = some (map', found) ∧
        (found.isSome = true ↔ addr ∈ map.covered) ∧
        ∀ r, found = some r →
          r.addrs =
            map.covered.ordConnectedComponent addr := by
  rcases mapContains_spec h addr with
    ⟨map', found, hLookup⟩
  refine ⟨map', found, hLookup.call, ?_, ?_⟩
  · rw [Option.isSome_iff_exists]
    constructor
    · intro hFound
      rcases hFound with ⟨r, hr⟩
      exact ⟨r, (hLookup.found_iff r).mp hr⟩
    · intro hCovered
      rcases hCovered with ⟨r, hr⟩
      exact ⟨r, (hLookup.found_iff r).mpr hr⟩
  · intro r hr
    rcases (hLookup.found_iff r).mp hr with ⟨hMem, hAddr⟩
    exact ((range_isRun h hMem).component hAddr).symm

/- A search succeeds if the input and the map share a byte. -/
theorem overlaps_of_apart
    {map : RangeMap ρ}
    {inp : MemRange ρ}
    (h : Apart 1 map.ranges)
    (hInp : inp.Valid) :
    (mapOverlaps map inp).isSome = true ↔
      (inp.addrs ∩ map.covered).Nonempty := by
  rw [← Option.ne_none_iff_isSome, ne_eq,
    mapOverlaps_eq_none_iff (h.mono (by omega)) hInp]
  push Not
  constructor
  · intro hGiven
    rcases hGiven with ⟨r, hr, hMeets⟩
    rcases (meets_iff_nonempty (h.valid r hr) hInp).mp
      hMeets with ⟨a, ha, hIn⟩
    exact ⟨a, hIn, r, hr, ha⟩
  · intro hGiven
    rcases hGiven with ⟨a, hIn, r, hr, ha⟩
    exact ⟨r, hr, (meets_iff_nonempty
      (h.valid r hr) hInp).mpr ⟨a, ha, hIn⟩⟩

/- It finds the lowest byte, and its run in the input. -/
theorem first_of_apart
    {map : RangeMap ρ}
    {inp : MemRange ρ}
    {obase osize : Nat}
    (h : Apart 1 map.ranges)
    (hInp : inp.Valid)
    (hFound : mapOverlaps map inp = some (obase, osize)) :
    IsLeast (inp.addrs ∩ map.covered) obase ∧
      Set.Ico obase (obase + osize) =
        inp.addrs ∩
          map.covered.ordConnectedComponent obase := by
  have hZero : Apart 0 map.ranges := h.mono (by omega)
  rcases mapOverlaps_found hZero hInp hFound with
    ⟨before, r, after, hRanges, hBefore, hMeets, hPart⟩
  have hMem : r ∈ map.ranges := by
    rw [hRanges]
    simp
  have hCommon := addrs_commonPart hPart
  rcases (meets_iff_nonempty (h.valid r hMem) hInp).mp
    hMeets with ⟨b, hb⟩
  rw [← hCommon] at hb
  have hBase : obase ∈ r.addrs ∩ inp.addrs := by
    rw [← hCommon]
    exact ⟨Nat.le_refl _, by
      have hLt := hb.2
      have hLe := hb.1
      omega⟩
  have hLowest : IsLowest map.ranges inp r := by
    rw [hRanges] at hZero ⊢
    exact isLowest_of_first hZero hInp hBefore hMeets
  have hRun := (range_isRun h hMem).component hBase.1
  refine ⟨⟨⟨hBase.2, r, hMem, hBase.1⟩, ?_⟩, ?_⟩
  · intro a ha
    rcases ha with ⟨hIn, s, hs, hAddr⟩
    by_contra hLess
    -- a byte before the first would lie in the same range
    have hLe := hLowest.lowest s hs ⟨a, hAddr, hIn⟩
    have hInside : a ∈ r.addrs := by
      have hTop := hBase.1
      rw [MemRange.mem_addrs] at hAddr hTop ⊢
      omega
    have hPartMem : a ∈ r.addrs ∩ inp.addrs :=
      ⟨hInside, hIn⟩
    rw [← hCommon] at hPartMem
    exact hLess hPartMem.1
  · have hAddrs :
        map.covered.ordConnectedComponent obase =
          r.addrs := hRun
    rw [hCommon, hAddrs, Set.inter_comm]

/- A well-formed map answers for the set it covers. -/
theorem answers_of_wellFormed
    {map : RangeMap ρ}
    (h : map.WellFormed) :
    Answers map map.covered where
  lookup := lookup_of_apart h.apart
  overlaps := fun _ hInp => overlaps_of_apart h.apart hInp
  first := fun _ _ _ hInp hFound =>
    first_of_apart h.apart hInp hFound
  array := mapToArrayAlloc_eq h.size_eq
  starts := by
    refine ⟨?_, fun a => mem_bases_iff h.apart⟩
    rw [List.pairwise_map]
    exact h.apart.ordered
  runs := by
    intro r hr
    have hRun := range_isRun h.apart hr
    exact (hRun.component ⟨Nat.le_refl _, hRun.lt⟩).symm
  bytes := mapSizeInBytes_eq h.apart

end Cbop
