import Cbop.Lib.Pool
import Cbop.Merge.Basic
import Cbop.RangeTree.Records

/-
  The records of patches in `commit_space`.

  A patch points to its bytes: `add_range_block` allocates a
  record for every range of the change set, and `clear_patch`
  frees the records of the ranges that are still in the
  patch. Read through its pointers, such a patch is the one
  of `Merge/Basic.lean`, which holds its bytes itself.

  The tree nodes of a patch are allocated and freed with
  their ranges and not counted here.

  Main declarations:
    * `PatchSpace.createPatch`, `PatchSpace.clearPatch`
    * `PatchSpace.pprCommit`, `PatchSpace.pprGroupCommit`
    * `PatchSpace.created_createPatch`
    * `PatchSpace.mapRecord_createPatch`
    * `PatchSpace.pprGroupCommit_eq`
-/

namespace Cbop

/- The records allocated in `commit_space`. -/
abbrev CommitSpace := Pool Bytes

/- A `map_t` whose ranges point to their records. -/
abbrev PatchMap := RangeMap Nat

/- `commit_space` and the array `patches`. -/
structure PatchSpace where
  space : CommitSpace
  patches : Nat → PatchMap

namespace PatchSpace

------------------------------------------------------------
-- Creating and Clearing Patches
------------------------------------------------------------

/-
  `add_range_block`, without the byte count: `mspace_calloc`
  clears the record, `memcpy` fills it.
-/
def addRangeBlock
    (allocator : Allocator Bytes)
    (mem : Memory)
    (sum : CommitSpace × PatchMap)
    (range : MemRange Bytes) :
    CommitSpace × PatchMap :=
  let (space, dataRec) :=
    sum.1.alloc allocator (List.replicate range.size 0)
  (space.write dataRec (loadBytes mem range.base range.size),
    mapAddRange sum.2 range.base range.size (some dataRec))

/- `create_patch`. -/
def createPatch
    (allocator : Allocator Bytes)
    (mem : Memory)
    (space : CommitSpace)
    (changeSet : RangeMap Bytes) :
    CommitSpace × PatchMap :=
  mapInject changeSet (space, initEmptyMap)
    (addRangeBlock allocator mem)

/- `apply_range_block`. -/
def applyRangeBlock
    (space : CommitSpace)
    (mem : Memory)
    (range : MemRange Nat) :
    Memory :=
  storeBytes mem range.base range.size
    ((range.record.map space.content).getD [])

/- `apply_patch`, which clears the map behind it. -/
def applyPatch
    (space : CommitSpace)
    (mem : Memory)
    (patch : PatchMap) :
    PatchMap × Memory :=
  (mapClear patch,
    mapInject patch mem (applyRangeBlock space))

/- `free_range_data`; to free `NULL` does nothing. -/
def freeRangeData
    (space : CommitSpace)
    (range : MemRange Nat) :
    CommitSpace :=
  match range.record with
  | some dataRec => space.free dataRec
  | none => space

/- `clear_patch`. -/
def clearPatch
    (space : CommitSpace)
    (patch : PatchMap) :
    CommitSpace × PatchMap :=
  (mapInject patch space freeRangeData, mapClear patch)

/- `ppr_commit`. -/
def pprCommit
    (st : PatchSpace)
    (allocator : Allocator Bytes)
    (specOrder : Nat)
    (mem : Memory)
    (writeMap : RangeMap Bytes) :
    PatchSpace :=
  let (space, patch) :=
    createPatch allocator mem st.space writeMap
  { space := space
    patches := Function.update st.patches specOrder patch }

/- One turn of the first loop of `ppr_group_commit`. -/
def applyAt
    (sum : PatchSpace × Memory)
    (ppr : Nat) :
    PatchSpace × Memory :=
  let (patch, mem) :=
    applyPatch sum.1.space sum.2 (sum.1.patches ppr)
  ({ sum.1 with
      patches := Function.update sum.1.patches ppr patch },
    mem)

/- One turn of the second loop. -/
def clearAt
    (st : PatchSpace)
    (ppr : Nat) :
    PatchSpace :=
  let (space, patch) := clearPatch st.space (st.patches ppr)
  { space := space
    patches := Function.update st.patches ppr patch }

/- `ppr_group_commit`. -/
def pprGroupCommit
    (st : PatchSpace)
    (specOrder : Nat)
    (mem : Memory) :
    PatchSpace × Memory :=
  let pprs := List.range (specOrder + 1)
  let (st, mem) := pprs.foldl applyAt (st, mem)
  (pprs.foldl clearAt st, mem)

------------------------------------------------------------
-- Records Created
------------------------------------------------------------

/- What adding the blocks of some ranges does to the space. -/
structure Created
    (space space' : CommitSpace)
    (count : Nat) : Prop where
  grows : space.Grows space'
  count_eq : space'.allocated.length =
    space.allocated.length + count

/- A block gets a new record with the bytes of its range. -/
theorem addRangeBlock_spec
    (allocator : Allocator Bytes)
    (mem : Memory)
    (sum : CommitSpace × PatchMap)
    (range : MemRange Bytes) :
    ∃ a,
      sum.1.Filled (addRangeBlock allocator mem sum range).1 a
        (loadBytes mem range.base range.size) ∧
      (addRangeBlock allocator mem sum range).2 =
        mapAddRange sum.2 range.base range.size (some a) :=
  ⟨_, sum.1.filled_write_alloc allocator _ _, rfl⟩

theorem created_foldl
    (allocator : Allocator Bytes)
    (mem : Memory)
    (ranges : List (MemRange Bytes))
    (sum : CommitSpace × PatchMap) :
    Created sum.1
      (ranges.foldl (addRangeBlock allocator mem) sum).1
      ranges.length := by
  induction ranges generalizing sum with
  | nil => exact ⟨.refl _, rfl⟩
  | cons range rest ih =>
      rcases addRangeBlock_spec allocator mem sum range with
        ⟨a, hHead, -⟩
      have hRest := ih (addRangeBlock allocator mem sum range)
      constructor
      · exact hHead.grows.trans hRest.grows
      · rw [List.foldl_cons, hRest.count_eq, hHead.allocated]
        simp only [List.length_append, List.length_cons,
          List.length_nil]
        omega

/- A patch gets one live record for each of its ranges. -/
theorem created_createPatch
    (allocator : Allocator Bytes)
    (mem : Memory)
    (space : CommitSpace)
    (changeSet : RangeMap Bytes) :
    Created space
      (createPatch allocator mem space changeSet).1
      changeSet.ranges.length :=
  created_foldl allocator mem changeSet.ranges
    (space, initEmptyMap)

/-
  Read through its pointers, a new patch is the patch that
  holds the bytes itself. The bytes may be read in any later
  space that kept the records of this one.
-/
theorem foldl_addRangeBlock
    (allocator : Allocator Bytes)
    (mem : Memory)
    (content : Nat → Bytes)
    (ranges : List (MemRange Bytes))
    (sum : CommitSpace × PatchMap)
    (hContent :
      ∀ a ∈ (ranges.foldl
          (addRangeBlock allocator mem) sum).1.live,
        content a = (ranges.foldl
          (addRangeBlock allocator mem) sum).1.content a) :
    (ranges.foldl (addRangeBlock allocator mem)
        sum).2.mapRecord content =
      ranges.foldl (Cbop.addRangeBlock mem)
        (sum.2.mapRecord content) := by
  induction ranges generalizing sum with
  | nil => rfl
  | cons range rest ih =>
      rcases addRangeBlock_spec allocator mem sum range with
        ⟨a, hHead, hPatch⟩
      have hRest := created_foldl allocator mem rest
        (addRangeBlock allocator mem sum range)
      have hBytes :
          content a = loadBytes mem range.base range.size := by
        rw [hContent a (hRest.grows.live hHead.mem),
          List.foldl_cons, hRest.grows.content a hHead.mem,
          hHead.content]
      rw [List.foldl_cons, ih _ hContent, hPatch,
        ← mapAddRange_mapRecord, Option.map_some, hBytes]
      rfl

theorem mapRecord_createPatch
    (allocator : Allocator Bytes)
    (mem : Memory)
    (space : CommitSpace)
    (changeSet : RangeMap Bytes) :
    (createPatch allocator mem space changeSet).2.mapRecord
        (createPatch allocator mem space
          changeSet).1.content =
      Cbop.createPatch mem changeSet :=
  foldl_addRangeBlock allocator mem _ changeSet.ranges
    (space, initEmptyMap) (fun _ _ => rfl)

------------------------------------------------------------
-- The Group Commit
------------------------------------------------------------

/- The memory a patch leaves, read through its pointers. -/
theorem applyPatch_memory
    (space : CommitSpace)
    (mem : Memory)
    (patch : PatchMap) :
    (applyPatch space mem patch).2 =
      Cbop.applyPatch mem (patch.mapRecord space.content) := by
  unfold applyPatch Cbop.applyPatch mapInject
  rw [ranges_mapRecord, List.foldl_map]
  rfl

/- The patches with those of the tasks below `n` cleared. -/
def clearedBelow
    (st : PatchSpace)
    (n : Nat) :
    PatchSpace :=
  { st with
    patches := fun ppr =>
      if ppr < n then mapClear (st.patches ppr)
      else st.patches ppr }

theorem clearedBelow_succ
    (st : PatchSpace)
    (n : Nat) :
    Function.update (st.clearedBelow n).patches n
        (mapClear (st.patches n)) =
      (st.clearedBelow (n + 1)).patches := by
  funext ppr
  by_cases hn : ppr = n
  · subst hn
    simp [clearedBelow]
  · rw [Function.update_of_ne hn]
    simp only [clearedBelow]
    have hLess : ppr < n + 1 ↔ ppr < n := by omega
    simp only [hLess]

/- The first loop applies the patches and clears the maps. -/
theorem foldl_applyAt
    (st : PatchSpace)
    (mem : Memory)
    (n : Nat) :
    (List.range n).foldl applyAt (st, mem) =
      (st.clearedBelow n,
        (List.range n).foldl
          (fun mem ppr => Cbop.applyPatch mem
            ((st.patches ppr).mapRecord st.space.content))
          mem) := by
  induction n with
  | zero => simp [clearedBelow]
  | succ n ih =>
      have hSlot : (st.clearedBelow n).patches n =
          st.patches n := by
        simp [clearedBelow]
      rw [List.range_succ, List.foldl_append,
        List.foldl_append, ih]
      simp only [List.foldl_cons, List.foldl_nil, applyAt,
        hSlot]
      rw [applyPatch_memory]
      refine Prod.ext ?_ rfl
      change PatchSpace.mk st.space (Function.update _ n
        (mapClear (st.patches n))) = _
      rw [clearedBelow_succ]
      rfl

/-
  The second loop finds maps without ranges, and so frees no
  record.
-/
theorem foldl_clearAt
    (st : PatchSpace)
    (n m : Nat)
    (hLe : n ≤ m) :
    (List.range n).foldl clearAt (st.clearedBelow m) =
      st.clearedBelow m := by
  induction n with
  | zero => rfl
  | succ n ih =>
      rw [List.range_succ, List.foldl_append,
        ih (by omega)]
      have hSlot : (st.clearedBelow m).patches n =
          mapClear (st.patches n) := by
        simp only [clearedBelow]
        rw [if_pos (by omega)]
      simp only [List.foldl_cons, List.foldl_nil, clearAt,
        hSlot]
      change PatchSpace.mk st.space (Function.update _ n
        (mapClear (st.patches n))) = _
      rw [← hSlot, Function.update_eq_self]
      rfl

/-
  The group commit leaves the memory of the patches with
  their bytes, clears the maps, and frees no record.
-/
theorem pprGroupCommit_eq
    (st : PatchSpace)
    (specOrder : Nat)
    (mem : Memory) :
    st.pprGroupCommit specOrder mem =
      (st.clearedBelow (specOrder + 1),
        (Cbop.pprGroupCommit
          (fun ppr =>
            (st.patches ppr).mapRecord st.space.content)
          specOrder mem).2) := by
  unfold pprGroupCommit
  simp only [foldl_applyAt]
  rw [foldl_clearAt st _ _ (Nat.le_refl _)]
  rfl

end PatchSpace

end Cbop
