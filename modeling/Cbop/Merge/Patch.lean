import Cbop.Merge.Check
import Cbop.RangeTree.SetOps

/-
  What recorded accesses and patches carry.

  The recorded maps of a task cover exactly the bytes of its
  recording calls when no call loses bytes. A patch made
  from a well-formed map holds the bytes of the map, and
  applying it lays these bytes over the memory.

  Main declarations:
    * `callBytes`, `RecordsExactly`
    * `covered_recordAll`
    * `createPatch_spec`, `applyPatch_createPatch`
    * `applyPatch_roundTrip`
-/

namespace Cbop

variable {ρ : Type}

------------------------------------------------------------
-- Recorded Accesses
------------------------------------------------------------

/- The bytes a sequence of recording calls names. -/
def callBytes (calls : List (Nat × Nat)) : Set Nat :=
  { a | ∃ c ∈ calls, a ∈ Set.Ico c.1 (c.1 + c.2) }

/- A range that leaves out address zero and ends in memory. -/
structure CallOk (c : Nat × Nat) : Prop where
  base_pos : 0 < c.1
  size_pos : 0 < c.2
  fits : c.1 + c.2 < 2 ^ 64

/- No call in the sequence loses bytes of the map. -/
def RecordsFrom
    (map : RangeMap Bytes) :
    List (Nat × Nat) → Prop
| [] => True
| c :: rest =>
    RootHolds map c.1 c.2 ∧
      RecordsFrom (recordAccess map c) rest

/- No call in the sequence loses bytes recorded before. -/
def RecordsExactly (calls : List (Nat × Nat)) : Prop :=
  RecordsFrom initEmptyMap calls

theorem foldl_recordAccess
    (calls : List (Nat × Nat))
    (map : RangeMap Bytes)
    (hMap : map.WellFormed)
    (hCalls : ∀ c ∈ calls, CallOk c)
    (hExact : RecordsFrom map calls) :
    (calls.foldl recordAccess map).WellFormed ∧
      (calls.foldl recordAccess map).covered =
        map.covered ∪ callBytes calls := by
  induction calls generalizing map with
  | nil =>
      refine ⟨hMap, ?_⟩
      simp [callBytes]
  | cons c rest ih =>
      rcases hExact with ⟨hRoot, hRest⟩
      have hC := hCalls c List.mem_cons_self
      rcases mapAddRange_spec none hMap hC.size_pos hC.fits with
        ⟨hWell, hCovered⟩
      rcases ih (recordAccess map c) hWell
          (fun d hd => hCalls d (List.mem_cons_of_mem _ hd))
          hRest with
        ⟨hWell', hCovered'⟩
      refine ⟨hWell', ?_⟩
      change (rest.foldl recordAccess _).covered = _
      rw [hCovered']
      change (mapAddRange map c.1 c.2 none).covered ∪ _ = _
      rw [hCovered.mpr hRoot, Set.union_assoc]
      congr 1
      ext a
      simp [callBytes]

/- Recorded maps are well formed and cover the calls. -/
theorem covered_recordAll
    {calls : List (Nat × Nat)}
    (hCalls : ∀ c ∈ calls, CallOk c)
    (hExact : RecordsExactly calls) :
    (recordAll calls).WellFormed ∧
      (recordAll calls).covered = callBytes calls ∧
      ∀ r ∈ (recordAll calls).ranges, 0 < r.base := by
  rcases foldl_recordAccess calls initEmptyMap
      (keeps_initEmptyMap 1) hCalls hExact with
    ⟨hWell, hCovered⟩
  have hCovers :
      (recordAll calls).covered = callBytes calls := by
    simpa [recordAll] using hCovered
  refine ⟨hWell, hCovers, ?_⟩
  intro r hr
  have hPos := (hWell.apart.valid r hr).pos
  have hMem : r.base ∈ (recordAll calls).covered := by
    refine ⟨r, hr, ?_⟩
    rw [MemRange.mem_addrs]
    omega
  rw [hCovers] at hMem
  rcases hMem with ⟨c, hc, hLe, _⟩
  have hBase := (hCalls c hc).base_pos
  omega

------------------------------------------------------------
-- Patches
------------------------------------------------------------

/- A range with the bytes memory holds there. -/
def loadRange
    (mem : Memory)
    (r : MemRange Bytes) :
    MemRange Bytes :=
  newNode r.base r.size (some (loadBytes mem r.base r.size))

/- A patch holds the bytes of the ranges it was made from. -/
theorem createPatch_spec
    (mem : Memory)
    {changeSet : RangeMap Bytes}
    (h : changeSet.WellFormed) :
    (createPatch mem changeSet).WellFormed ∧
      (createPatch mem changeSet).ranges =
        changeSet.ranges.map (loadRange mem) :=
  foldl_mapAddRange
    (fun r => some (loadBytes mem r.base r.size))
    changeSet.ranges initEmptyMap (keeps_initEmptyMap 1)
    h.apart

theorem createPatch_wellFormed
    (mem : Memory)
    {changeSet : RangeMap Bytes}
    (h : changeSet.WellFormed) :
    (createPatch mem changeSet).WellFormed :=
  (createPatch_spec mem h).1

theorem ranges_createPatch
    (mem : Memory)
    {changeSet : RangeMap Bytes}
    (h : changeSet.WellFormed) :
    (createPatch mem changeSet).ranges =
      changeSet.ranges.map (loadRange mem) :=
  (createPatch_spec mem h).2

/- Adding a range leaves a map with a range. -/
theorem mapAddRange_root_ne_nil
    (map : RangeMap Bytes)
    (base size : Nat)
    (obj : Option Bytes) :
    (mapAddRange map base size obj).root ≠ .nil := by
  unfold mapAddRange
  split
  · simp
  · simp only
    split_ifs <;> simp

/- A patch has ranges exactly if its map has. -/
theorem createPatch_eq_nil_iff
    (mem : Memory)
    (writeMap : RangeMap Bytes) :
    (createPatch mem writeMap).ranges = [] ↔
      writeMap.ranges = [] := by
  unfold createPatch mapInject
  rcases List.eq_nil_or_concat writeMap.ranges with
    hNil | ⟨init, last, hLast⟩
  · simp [hNil]
  · rw [hLast, List.concat_eq_append, List.foldl_append]
    simp [addRangeBlock, mapAddRange_root_ne_nil]

theorem applyRangeBlock_loadRange
    (m mem : Memory)
    (r : MemRange Bytes)
    (a : Nat) :
    (a ∈ r.addrs →
      applyRangeBlock m (loadRange mem r) a = mem a) ∧
    (a ∉ r.addrs →
      applyRangeBlock m (loadRange mem r) a = m a) := by
  rw [MemRange.mem_addrs]
  constructor
  · intro h
    rcases h with ⟨hLe, hLt⟩
    have hIndex : a - r.base < r.size := by omega
    have hAddr : r.base + (a - r.base) = a := by omega
    simp [applyRangeBlock, loadRange, newNode, storeBytes,
      loadBytes, hLe, hLt, hIndex, hAddr]
  · intro hOut
    exact if_neg hOut

/- Laying loaded ranges over a memory, one after another. -/
theorem foldl_applyRangeBlock
    (mem : Memory)
    (ranges : List (MemRange Bytes))
    (m : Memory)
    (a : Nat) :
    (a ∈ covered ranges →
      (ranges.map (loadRange mem)).foldl applyRangeBlock m a =
        mem a) ∧
    (a ∉ covered ranges →
      (ranges.map (loadRange mem)).foldl applyRangeBlock m a =
        m a) := by
  induction ranges generalizing m with
  | nil =>
      constructor
      · simp
      · intro _
        rfl
  | cons r rest ih =>
      rcases ih (applyRangeBlock m (loadRange mem r)) with
        ⟨hIn, hOut⟩
      rcases applyRangeBlock_loadRange m mem r a with
        ⟨hHead, hKeep⟩
      rw [covered_cons]
      constructor
      · intro hMem
        by_cases hRest : a ∈ covered rest
        · exact hIn hRest
        · have hR : a ∈ r.addrs := by
            rcases hMem with hR | hRest'
            · exact hR
            · exact absurd hRest' hRest
          exact (hOut hRest).trans (hHead hR)
      · intro hNot
        have hR : a ∉ r.addrs := fun hR => hNot (.inl hR)
        have hRest : a ∉ covered rest :=
          fun hRest => hNot (.inr hRest)
        exact (hOut hRest).trans (hKeep hR)

/-
  Applying a task's patch lays the bytes of its map over the
  memory and changes nothing else.
-/
theorem applyPatch_createPatch
    (m mem : Memory)
    {changeSet : RangeMap Bytes}
    (h : changeSet.WellFormed)
    (a : Nat) :
    (a ∈ changeSet.covered →
      applyPatch m (createPatch mem changeSet) a = mem a) ∧
    (a ∉ changeSet.covered →
      applyPatch m (createPatch mem changeSet) a = m a) := by
  unfold applyPatch mapInject
  rw [ranges_createPatch mem h]
  exact foldl_applyRangeBlock mem changeSet.ranges m a

/-
  A patch made on one memory and applied to another carries
  over the bytes of the change set and no others. It has the
  ranges of the change set, each with as many bytes as it
  is long.
-/
theorem applyPatch_roundTrip
    (m m' : Memory)
    {changeSet : RangeMap Bytes}
    (h : changeSet.WellFormed) :
    (∀ a ∈ changeSet.covered,
      applyPatch m' (createPatch m changeSet) a = m a) ∧
    (∀ a, a ∉ changeSet.covered →
      applyPatch m' (createPatch m changeSet) a = m' a) ∧
    (createPatch m changeSet).ranges.map MemRange.extent =
      changeSet.ranges.map MemRange.extent ∧
    ∀ r ∈ (createPatch m changeSet).ranges,
      ∃ data, r.record = some data ∧ data.length = r.size := by
  refine ⟨?_, ?_, ?_, ?_⟩
  · intro a ha
    exact (applyPatch_createPatch m' m h a).1 ha
  · intro a ha
    exact (applyPatch_createPatch m' m h a).2 ha
  · rw [ranges_createPatch m h, List.map_map]
    rfl
  · rw [ranges_createPatch m h]
    intro r hr
    rcases List.mem_map.mp hr with ⟨s, _, rfl⟩
    exact ⟨loadBytes m s.base s.size, rfl,
      by simp [loadBytes, loadRange, newNode]⟩

/- A change set of two ranges around an unchanged byte. -/
def twoChanges : RangeMap Bytes where
  isHash := false
  root := .node (.node .nil (newNode 8 4 none) .nil)
    (newNode 13 2 none) .nil
  size := 2

theorem applyPatch_roundTrip_twoChanges :
    applyPatch (fun _ => 0) (createPatch (fun _ => 7)
        twoChanges) 9 = 7 ∧
      applyPatch (fun _ => 0) (createPatch (fun _ => 7)
        twoChanges) 12 = 0 := by
  rcases applyPatch_roundTrip (fun _ => 7) (fun _ => 0)
      (show twoChanges.WellFormed by decide) with
    ⟨hIn, hOut, _, _⟩
  exact ⟨hIn 9 (by decide), hOut 12 (by decide)⟩

/- A patch without ranges changes nothing. -/
theorem applyPatch_of_empty
    (m : Memory)
    {patch : RangeMap Bytes}
    (h : patch.ranges = []) :
    applyPatch m patch = m := by
  unfold applyPatch mapInject
  rw [h]
  rfl

end Cbop
