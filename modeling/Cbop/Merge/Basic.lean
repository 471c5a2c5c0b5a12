import Cbop.PostWait.FromTask

/-
  The copy-and-merge port of `bop_merge.c`: recording of
  accesses, the dependence check against the union of the
  earlier tasks' writes, and patches that carry a task's
  writes to the task that commits the group.

  Memory is a function from addresses to bytes. Each task
  has its own; patches and the write union are shared.

  Main declarations:
    * `checkForOverlap`, `pprIsCorrect`
    * `createPatch`, `applyPatch`
    * `pprCommit`, `pprGroupCommit`
-/

namespace Cbop

------------------------------------------------------------
-- Memory
------------------------------------------------------------

/- The memory of one process. -/
abbrev Memory := Nat → UInt8

/- `memcpy` out of memory. -/
def loadBytes
    (mem : Memory)
    (base size : Nat) :
    Bytes :=
  (List.range size).map (fun i => mem (base + i))

/- `memcpy` of `size` bytes of a record into memory. -/
def storeBytes
    (mem : Memory)
    (base size : Nat)
    (data : Bytes) :
    Memory :=
  fun a =>
    if base ≤ a ∧ a < base + size then
      data.getD (a - base) 0
    else
      mem a

------------------------------------------------------------
-- Recording Accesses
------------------------------------------------------------

/-
  `BOP_record_read` and `BOP_record_write` by a task inside
  its region, on the map they record in.
-/
def recordAccess
    (map : RangeMap Bytes)
    (access : Nat × Nat) :
    RangeMap Bytes :=
  mapAddRange map access.1 access.2 none

/- The map after a sequence of recording calls. -/
def recordAll (calls : List (Nat × Nat)) : RangeMap Bytes :=
  calls.foldl recordAccess initEmptyMap

------------------------------------------------------------
-- The Dependence Check
------------------------------------------------------------

/-
  What the check reads and writes: the shared write union,
  the task's received ranges and those of them it used, and
  the last conflict address.
-/
structure CheckState where
  writeUnion : RangeMap Bytes
  received : RangeMap Bytes
  receivedNUsed : RangeMap Bytes
  conflictAddr : Nat
deriving DecidableEq, Repr

/- `mem_range_eq`, on base and size. -/
def memRangeEq (r1 r2 : Nat × Nat) : Bool :=
  r1.1 = r2.1 && r1.2 = r2.2

/- Base and size of a range. -/
def MemRange.extent (r : MemRange Bytes) : Nat × Nat :=
  (r.base, r.size)

/- `map_contains` where the source follows the result. -/
def mapFind
    (map : RangeMap Bytes)
    (addr : Nat) :
    Outcome (RangeMap Bytes × MemRange Bytes) := do
  let (map', found) ← Outcome.ofOption (mapContains map addr)
  let range ← Outcome.ofOption found
  pure (map', range)

/-
  The part of `check_for_overlap` reached when an access
  range equals a range of the write union: it is excused if
  it was received from the last writer.
-/
def checkReceived
    (st : CheckState)
    (mseg acc : MemRange Bytes)
    (found : Nat × Nat) :
    Outcome (CheckState × Option Nat) :=
  match mapOverlaps st.received mseg with
  | none => pure (st, some found.1)
  | some recv =>
      if memRangeEq found recv then do
        let (received, recvRange) ←
          mapFind st.received recv.1
        let st := { st with received := received }
        if recvRange.task = acc.task then
          -- saved to check for modify-after-post conflicts
          let used ←
            (mapAddRangeFromTask st.receivedNUsed acc.base
              acc.size recvRange.record acc.task).outcome
          pure ({ st with receivedNUsed := used }, none)
        else
          pure (st, some found.1)
      else
        pure (st, some found.1)

/-
  The body of the loop of `check_for_overlap` for one access
  range. The second component is a conflict address.
-/
def checkRange
    (st : CheckState)
    (mseg : MemRange Bytes) :
    Outcome (CheckState × Option Nat) :=
  match mapOverlaps st.writeUnion mseg with
  | none => pure (st, none)
  | some found => do
      -- looked up once for the message, once for the test
      let (writeUnion, _) ← mapFind st.writeUnion found.1
      let st := { st with writeUnion := writeUnion }
      if memRangeEq found mseg.extent then
        let (writeUnion, acc) ←
          mapFind st.writeUnion found.1
        let st :=
          { st with writeUnion := writeUnion
                    conflictAddr := found.1 }
        if memRangeEq acc.extent found then
          checkReceived st mseg acc found
        else
          pure (st, some found.1)
      else
        pure (st, some found.1)

/- The loop of `check_for_overlap`. -/
def checkRanges
    (st : CheckState) :
    List (MemRange Bytes) → Outcome (CheckState × Nat)
| [] => pure (st, 0)
| mseg :: rest => do
    let (st, conflict) ← checkRange st mseg
    match conflict with
    | some base => pure (st, base)
    | none => checkRanges st rest

/- `check_for_overlap`: zero if there is no conflict. -/
def checkForOverlap
    (st : CheckState)
    (myAccess : RangeMap Bytes) :
    Outcome (CheckState × Nat) :=
  if st.writeUnion.size = 0 then
    pure (st, 0)
  else
    checkRanges st (mapToArray myAccess)

/- `union_add_range`, by the task with this index. -/
def unionAddRange
    (pprIndex : Nat)
    (writeUnion : RangeMap Bytes)
    (range : MemRange Bytes) :
    Outcome (RangeMap Bytes) :=
  (mapAddRangeFromTask writeUnion range.base range.size
    none pprIndex).outcome

/- `ppr_is_correct` of a task that is not sequential. -/
def pprIsCorrect
    (st : CheckState)
    (readMap writeMap : RangeMap Bytes)
    (pprIndex : Nat) :
    Outcome (CheckState × Bool) := do
  let (st, conflict) ← checkForOverlap st readMap
  if conflict ≠ 0 then
    pure (st, false)
  else
    let writeUnion ←
      writeMap.ranges.foldlM (unionAddRange pprIndex)
        st.writeUnion
    pure ({ st with writeUnion := writeUnion }, true)

------------------------------------------------------------
-- Patches
------------------------------------------------------------

/- `add_range_block`, without the byte count. -/
def addRangeBlock
    (mem : Memory)
    (patch : RangeMap Bytes)
    (range : MemRange Bytes) :
    RangeMap Bytes :=
  mapAddRange patch range.base range.size
    (some (loadBytes mem range.base range.size))

/- `create_patch`. -/
def createPatch
    (mem : Memory)
    (changeSet : RangeMap Bytes) :
    RangeMap Bytes :=
  mapInject changeSet initEmptyMap (addRangeBlock mem)

/- `apply_range_block`. -/
def applyRangeBlock
    (mem : Memory)
    (range : MemRange Bytes) :
    Memory :=
  storeBytes mem range.base range.size
    (range.record.getD [])

/- The memory `apply_patch` leaves. -/
def applyPatch
    (mem : Memory)
    (patch : RangeMap Bytes) :
    Memory :=
  mapInject patch mem applyRangeBlock

/- `ppr_commit`: the task publishes its writes. -/
def pprCommit
    (patches : Nat → RangeMap Bytes)
    (specOrder : Nat)
    (mem : Memory)
    (writeMap : RangeMap Bytes) :
    Nat → RangeMap Bytes :=
  Function.update patches specOrder
    (createPatch mem writeMap)

/-
  `ppr_group_commit`: all patches up to the committing
  task's own slot are applied in task order, and cleared.
-/
def pprGroupCommit
    (patches : Nat → RangeMap Bytes)
    (specOrder : Nat)
    (mem : Memory) :
    (Nat → RangeMap Bytes) × Memory :=
  (fun ppr =>
      if ppr ≤ specOrder then
        mapClear (patches ppr)
      else
        patches ppr,
    (List.range (specOrder + 1)).foldl
      (fun mem ppr => applyPatch mem (patches ppr)) mem)

end Cbop
