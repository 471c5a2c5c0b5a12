import Cbop.Merge.Space
import Cbop.Ppr.Protocol
import Mathlib.Data.Finset.Lattice.Fold
import Mathlib.Order.Lattice.Nat

/-
  The records of a task group in `commit_space`.

  Tasks that commit data allocate a record for each range of
  their write maps. The last task applies the patches, which
  clears their maps, before it frees the records that are
  still in a map: none is, and every record of the group
  stays allocated.

  Main declarations:
    * `PatchGroup`, `spaceMachine`
    * `SpaceInv`, `spaceInv_of_reachable`
    * `records_released_iff`
-/

namespace Cbop

------------------------------------------------------------
-- The Machine
------------------------------------------------------------

/-
  A group with the write maps its tasks have recorded and
  the memories they commit from.
-/
structure PatchGroup where
  size : Nat
  writeMap : Nat → RangeMap Bytes
  memory : Nat → Memory
  atomicSet : Bool
  mainLeads : Bool

/- The protocol's view of the group. -/
def PatchGroup.protocolGroup
    (g : PatchGroup) :
    Group (MemRange Bytes) where
  size := g.size
  writes := fun k => (g.writeMap k).ranges
  atomicSet := g.atomicSet
  mainLeads := g.mainLeads

/-
  The patches and their records, the memories of the tasks,
  the tasks that ran `ppr_commit` in this group, and the
  records each of them created.
-/
structure SpaceData where
  st : PatchSpace
  mem : Nat → Memory
  committed : List Nat
  created : Nat → List Nat

/- What `ppr_commit` of task `k` does to the data. -/
def SpaceData.dataCommit
    (d : SpaceData)
    (g : PatchGroup)
    (allocator : Allocator Bytes)
    (k : Nat) :
    SpaceData :=
  let st :=
    d.st.pprCommit allocator k (d.mem k) (g.writeMap k)
  let fresh := st.space.allocated.drop
    d.st.space.allocated.length
  { d with
    st := st
    committed := d.committed ++ [k]
    created :=
      Function.update d.created k (d.created k ++ fresh) }

/- What `ppr_group_commit` of task `k` does to it. -/
def SpaceData.groupCommit
    (d : SpaceData)
    (k : Nat) :
    SpaceData :=
  let (st, mem) := d.st.pprGroupCommit k (d.mem k)
  { d with st := st, mem := Function.update d.mem k mem }

/-
  The data's part of a step. A speculative task that aborts
  in `data_commit` does so behind `ppr_commit`; MAIN comes
  back to `data_commit` instead.
-/
def spaceReact
    (g : PatchGroup)
    (allocator : Allocator Bytes)
    (s : State (MemRange Bytes))
    (label : Proc × Act)
    (d : SpaceData) :
    Option SpaceData :=
  match label with
  | (.task k, .go) =>
      match s.pc k with
      | .dataCommit => some (d.dataCommit g allocator k)
      | .groupCommit => some (d.groupCommit k)
      | _ => some d
  | (.task k, .abort) =>
      if s.pc k = .dataCommit ∧ k ≠ 0 then
        some (d.dataCommit g allocator k)
      else
        some d
  | _ => some d

/-
  The group as a machine. `commit_space` and the patches may
  hold anything that earlier groups left there.
-/
def spaceMachine
    (g : PatchGroup)
    (allocator : Allocator Bytes)
    (start : PatchSpace) :
    Machine (State (MemRange Bytes) × SpaceData)
      (Proc × Act) :=
  (protocol g.protocolGroup).withData
    { st := start
      mem := g.memory
      committed := []
      created := fun _ => [] }
    (spaceReact g allocator)

/-
  No record that the tasks `0` to `j` created is live, and
  none was freed without being live.
-/
def RecordsReleased
    (start : PatchSpace)
    (d : SpaceData)
    (j : Nat) :
    Prop :=
  (∀ k ≤ j, ∀ a ∈ d.created k, a ∉ d.st.space.live) ∧
    d.st.space.badFrees = start.space.badFrees

------------------------------------------------------------
-- The Invariant
------------------------------------------------------------

/-
  What the tasks created is live, and a task created records
  if it ran `ppr_commit` and had written.
-/
structure SpaceInv
    (g : PatchGroup)
    (start : PatchSpace)
    (d : SpaceData) : Prop where
  grows : start.space.Grows d.st.space
  live : ∀ k, ∀ a ∈ d.created k, a ∈ d.st.space.live
  empty_iff : ∀ k, d.created k = [] ↔
    (k ∈ d.committed → (g.writeMap k).ranges = [])

/- The records that a data commit creates. -/
theorem dataCommit_created
    (d : SpaceData)
    (g : PatchGroup)
    (allocator : Allocator Bytes)
    (k : Nat) :
    ∃ fresh,
      d.st.space.Grows (d.dataCommit g allocator k).st.space ∧
      (d.dataCommit g allocator k).created =
        Function.update d.created k (d.created k ++ fresh) ∧
      (∀ a ∈ fresh,
        a ∈ (d.dataCommit g allocator k).st.space.live) ∧
      fresh.length = (g.writeMap k).ranges.length := by
  have hCreated := PatchSpace.created_createPatch allocator
    (d.mem k) d.st.space (g.writeMap k)
  rcases hCreated.grows.allocated with
    ⟨fresh, hAllocated, hLive⟩
  have hDrop :
      (d.dataCommit g allocator k).created =
        Function.update d.created k
          (d.created k ++ fresh) := by
    change Function.update d.created k (d.created k ++
      List.drop d.st.space.allocated.length
        (PatchSpace.createPatch _ _ _ _).1.allocated) = _
    rw [hAllocated, List.drop_left]
  refine ⟨fresh, hCreated.grows, hDrop, hLive, ?_⟩
  have hCount := hCreated.count_eq
  rw [hAllocated, List.length_append] at hCount
  omega

theorem spaceInv_dataCommit
    {g : PatchGroup}
    {start : PatchSpace}
    {d : SpaceData}
    (hInv : SpaceInv g start d)
    (allocator : Allocator Bytes)
    (k : Nat) :
    SpaceInv g start (d.dataCommit g allocator k) := by
  rcases dataCommit_created d g allocator k with
    ⟨fresh, hGrows, hCreated, hLive, hLength⟩
  have hCommitted :
      (d.dataCommit g allocator k).committed =
        d.committed ++ [k] := rfl
  constructor
  · exact hInv.grows.trans hGrows
  · intro i a ha
    rw [hCreated] at ha
    by_cases hi : i = k
    · subst hi
      rw [Function.update_self, List.mem_append] at ha
      rcases ha with hOld | hNew
      · exact hGrows.live (hInv.live i a hOld)
      · exact hLive a hNew
    · rw [Function.update_of_ne hi] at ha
      exact hGrows.live (hInv.live i a ha)
  · intro i
    rw [hCreated, hCommitted]
    by_cases hi : i = k
    · subst hi
      rw [Function.update_self, List.append_eq_nil_iff,
        ← List.length_eq_zero_iff (l := fresh), hLength,
        List.length_eq_zero_iff, hInv.empty_iff i]
      simp only [List.mem_append, List.mem_singleton, or_true,
        forall_const]
      exact ⟨And.right, fun h => ⟨fun _ => h, h⟩⟩
    · have hOther : i ∈ d.committed ++ [k] ↔
          i ∈ d.committed := by
        simp [hi]
      rw [Function.update_of_ne hi, hOther]
      exact hInv.empty_iff i

/- The group commit allocates and frees nothing. -/
theorem spaceInv_groupCommit
    {g : PatchGroup}
    {start : PatchSpace}
    {d : SpaceData}
    (hInv : SpaceInv g start d)
    (k : Nat) :
    SpaceInv g start (d.groupCommit k) := by
  have hSpace : (d.groupCommit k).st.space = d.st.space := by
    unfold SpaceData.groupCommit
    rw [PatchSpace.pprGroupCommit_eq]
    rfl
  constructor
  · rw [hSpace]
    exact hInv.grows
  · rw [hSpace]
    exact hInv.live
  · exact hInv.empty_iff

theorem spaceInv_react
    {g : PatchGroup}
    {allocator : Allocator Bytes}
    {start : PatchSpace}
    {s : State (MemRange Bytes)}
    {label : Proc × Act}
    {d d' : SpaceData}
    (hInv : SpaceInv g start d)
    (h : spaceReact g allocator s label d = some d') :
    SpaceInv g start d' := by
  unfold spaceReact at h
  split at h
  · split at h <;> simp only [Option.some.injEq] at h <;>
      subst h
    · exact spaceInv_dataCommit hInv allocator _
    · exact spaceInv_groupCommit hInv _
    · exact hInv
  · split at h <;> simp only [Option.some.injEq] at h <;>
      subst h
    · exact spaceInv_dataCommit hInv allocator _
    · exact hInv
  · simp only [Option.some.injEq] at h
    subst h
    exact hInv

/- The invariant holds in every run, aborted or not. -/
theorem spaceInv_of_reachable
    {g : PatchGroup}
    {allocator : Allocator Bytes}
    {start : PatchSpace}
    {state : State (MemRange Bytes) × SpaceData}
    (h : (spaceMachine g allocator start).Reachable
      Machine.anyStep state) :
    SpaceInv g start state.2 := by
  refine h.invariant
    (fun state => SpaceInv g start state.2) ?_ ?_
  · refine ⟨.refl _, ?_, ?_⟩
    · intro k a ha
      exact absurd ha List.not_mem_nil
    · intro k
      refine iff_of_true rfl ?_
      intro hMem
      exact absurd hMem List.not_mem_nil
  · intro state label state' _ hInv _ hStep
    exact spaceInv_react hInv
      (Machine.withData_step_iff.mp hStep).2

------------------------------------------------------------
-- Records after the Group Commit
------------------------------------------------------------

/-
  What the tasks `0` to `j` created is released exactly if
  there is nothing: no task that ran `ppr_commit` had
  written anything.
-/
theorem records_released_iff
    (g : PatchGroup)
    (allocator : Allocator Bytes)
    (start : PatchSpace)
    {s : State (MemRange Bytes)}
    {d : SpaceData}
    (hReach : (spaceMachine g allocator start).Reachable
      Machine.anyStep (s, d))
    (j : Nat) :
    Event.groupCommitted j ∈ s.log →
      (RecordsReleased start d j ↔
        ∀ k ≤ j, k ∈ d.committed →
          (g.writeMap k).ranges = []) := by
  intro _
  have hInv := spaceInv_of_reachable hReach
  constructor
  · intro hReleased k hk
    rw [← hInv.empty_iff, List.eq_nil_iff_forall_not_mem]
    intro a ha
    exact hReleased.1 k hk a ha (hInv.live k a ha)
  · intro hEmpty
    refine ⟨?_, hInv.grows.badFrees⟩
    intro k hk a ha
    rw [(hInv.empty_iff k).mpr (hEmpty k hk)] at ha
    exact absurd ha List.not_mem_nil

/- Records are placed behind all live ones. -/
def bumpAllocator : Allocator Bytes where
  next := fun pool => pool.live.sup id + 1
  fresh := by
    intro pool hMem
    have hLe : pool.live.sup id + 1 ≤ pool.live.sup id :=
      Finset.le_sup (f := id) hMem
    omega

/- No patch and no record, as after `bop_merge_init`. -/
def emptyPatches : PatchSpace where
  space :=
    { live := ∅
      content := fun _ => []
      allocated := []
      badFrees := [] }
  patches := fun _ => initEmptyMap

/- Two tasks, the first of which writes some calls. -/
def callGroup (calls : List (Nat × Nat)) : PatchGroup where
  size := 2
  writeMap := fun k =>
    if k = 0 then recordAll calls else initEmptyMap
  memory := fun _ _ => 0
  atomicSet := false
  mainLeads := true

/- A run of the two tasks that ends in the group commit. -/
theorem callGroup_run
    (calls : List (Nat × Nat))
    (trace : List (Proc × Act))
    (p : SpaceData → Bool)
    (h : ((spaceMachine (callGroup calls) bumpAllocator
        emptyPatches).run (fun _ _ => true)
      (spaceMachine (callGroup calls) bumpAllocator
        emptyPatches).start trace).any
        (fun state =>
          Event.groupCommitted 1 ∈ state.1.log ∧
            p state.2 = true) = true) :
    ∃ s d, (spaceMachine (callGroup calls) bumpAllocator
        emptyPatches).Reachable Machine.anyStep (s, d) ∧
      Event.groupCommitted 1 ∈ s.log ∧ p d = true := by
  have hRun := Machine.exists_reachable_of_run
    (spaceMachine (callGroup calls) bumpAllocator
      emptyPatches)
    Machine.anyStep (fun _ _ => true)
    (fun _ _ _ => trivial) trace _ h
  rcases hRun with ⟨⟨s, d⟩, hReach, hTest⟩
  simp only [decide_eq_true_eq] at hTest
  exact ⟨s, d, hReach, hTest⟩

/- The tasks write nothing. -/
theorem records_released_quiet :
    ∃ s d, (spaceMachine (callGroup []) bumpAllocator
        emptyPatches).Reachable Machine.anyStep (s, d) ∧
      Event.groupCommitted 1 ∈ s.log ∧
      RecordsReleased emptyPatches d 1 := by
  have hRun := callGroup_run []
    (List.replicate 10 (.task 0, .go) ++
      List.replicate 14 (.task 1, .go))
    (fun _ => true) (by decide)
  rcases hRun with ⟨s, d, hReach, hCommitted, -⟩
  refine ⟨s, d, hReach, hCommitted, ?_⟩
  refine (records_released_iff (callGroup []) bumpAllocator
    emptyPatches hReach 1 hCommitted).mpr ?_
  intro k _ _
  by_cases hk : k = 0 <;>
    simp [callGroup, hk, recordAll]

/-
  Task 0 writes one byte. Its record is still live after the
  group commit, and its patch no longer points to it.
-/
theorem group_commit_keeps_record :
    (∀ k, ((callGroup [(1, 1)]).writeMap k).WellFormed) ∧
    ∃ s d, (spaceMachine (callGroup [(1, 1)]) bumpAllocator
        emptyPatches).Reachable Machine.anyStep (s, d) ∧
      Event.groupCommitted 1 ∈ s.log ∧
      (d.st.patches 0).ranges = [] ∧
      ¬RecordsReleased emptyPatches d 1 := by
  constructor
  · intro k
    by_cases hk : k = 0
    · subst hk
      change (recordAll [(1, 1)]).Keeps 1
      decide
    · simp only [callGroup, if_neg hk]
      exact keeps_initEmptyMap 1
  have hRun := callGroup_run [(1, 1)]
    (List.replicate 11 (.task 0, .go) ++
      List.replicate 14 (.task 1, .go))
    (fun d => d.created 0 = [1] ∧ 1 ∈ d.st.space.live ∧
      (d.st.patches 0).ranges = [])
    (by decide)
  rcases hRun with ⟨s, d, hReach, hCommitted, hTest⟩
  simp only [decide_eq_true_eq] at hTest
  rcases hTest with ⟨hCreated, hLive, hCleared⟩
  refine ⟨s, d, hReach, hCommitted, hCleared, ?_⟩
  intro hReleased
  exact hReleased.1 0 (by omega) 1 (by simp [hCreated]) hLive

end Cbop
