import Cbop.Lib.Serial
import Cbop.Merge.Accepts
import Cbop.Merge.Patch

/-
  The merge port by itself: tasks that ran on copies of one
  memory check and publish their writes in order, and the
  last of them applies all patches, its own included.

  A check that passes says that the task read nothing the
  earlier ones wrote, so each did on the common memory what
  it would have done in its turn.

  Main declarations:
    * `MergeTask`, `mergeTasks`
    * `applyPatch_eq_layer`
    * `merge_serialisable`
-/

namespace Cbop

------------------------------------------------------------
-- Tasks
------------------------------------------------------------

/-
  A deterministic task and the access maps it records when
  it runs on `m₀`: the read map covers what it reads there
  before writing it, the write map what it writes.
-/
structure MergeTask (m₀ : Memory) where
  task : Transaction Nat UInt8
  maps : TaskMaps
  wellFormed : maps.WellFormed
  reads_subset : task.reads m₀ ⊆ maps.readMap.covered
  writes_eq : maps.writeMap.covered = task.writes m₀

/-
  The tasks from position `k` on, one after the other, as
  long as every check passes: `ppr_is_correct` with nothing
  received, then `ppr_commit`. The first component says
  whether all of them passed.
-/
def mergeTasks
    {m₀ : Memory}
    (pprIndex : Nat) :
    Nat → List (MergeTask m₀) → RangeMap Bytes →
      (Nat → RangeMap Bytes) →
      Outcome (Bool × RangeMap Bytes × (Nat → RangeMap Bytes))
| _, [], wu, patches => pure (true, wu, patches)
| k, t :: rest, wu, patches => do
    let (st, passed) ←
      pprIsCorrect (freshCheck wu) t.maps.readMap
        t.maps.writeMap (pprIndex + k)
    if passed then
      mergeTasks pprIndex (k + 1) rest st.writeUnion
        (pprCommit patches k (t.task.run m₀) t.maps.writeMap)
    else
      pure (false, st.writeUnion, patches)

/- The access maps of the tasks of a list. -/
def mapsOfTasks
    {m₀ : Memory}
    (tasks : List (MergeTask m₀)) :
    List TaskMaps :=
  tasks.map MergeTask.maps

/- The tasks of a list as transactions. -/
def transactionsOf
    {m₀ : Memory}
    (tasks : List (MergeTask m₀)) :
    List (Transaction Nat UInt8) :=
  tasks.map MergeTask.task

/- The memory after the tasks ran one after the other. -/
def runInTurn
    {m₀ : Memory}
    (tasks : List (MergeTask m₀)) :
    Memory :=
  tasks.foldl (fun mem t => t.task.run mem) m₀

theorem runInTurn_eq_serial
    {m₀ : Memory}
    (tasks : List (MergeTask m₀)) :
    runInTurn tasks =
      Transaction.serial (transactionsOf tasks) m₀ := by
  unfold runInTurn Transaction.serial transactionsOf
  rw [List.foldl_map]

------------------------------------------------------------
-- Patches as Layers
------------------------------------------------------------

/-
  The patch of a task that ran on `m₀` lays its writes over
  any memory.
-/
theorem applyPatch_eq_layer
    {m₀ : Memory}
    {t : Transaction Nat UInt8}
    {writeMap : RangeMap Bytes}
    (hWell : writeMap.WellFormed)
    (hCovered : writeMap.covered = t.writes m₀)
    (m : Memory) :
    applyPatch m (createPatch (t.run m₀) writeMap) =
      Transaction.layer m₀ m t := by
  funext a
  rcases applyPatch_createPatch m (t.run m₀) hWell a with
    ⟨hIn, hOut⟩
  rw [hCovered] at hIn hOut
  by_cases ha : a ∈ t.writes m₀
  · rw [hIn ha, Transaction.layer_of_mem m ha]
  · rw [hOut ha, Transaction.layer_of_notMem m ha]

/- Slot `k + i` holds the patch of the task at place `i`. -/
def Published
    {m₀ : Memory}
    (patches : Nat → RangeMap Bytes)
    (k : Nat)
    (tasks : List (MergeTask m₀)) : Prop :=
  ∀ i (t : MergeTask m₀), tasks[i]? = some t →
    patches (k + i) =
      createPatch (t.task.run m₀) t.maps.writeMap

/- All patches, in the order of their slots. -/
theorem foldl_applyPatch_published
    {m₀ : Memory}
    {patches : Nat → RangeMap Bytes}
    (k : Nat)
    (tasks : List (MergeTask m₀))
    (h : Published patches k tasks)
    (m : Memory) :
    (List.range' k tasks.length).foldl
        (fun mem ppr => applyPatch mem (patches ppr)) m =
      Transaction.replay m₀ (transactionsOf tasks) m := by
  induction tasks generalizing k m with
  | nil => rfl
  | cons t rest ih =>
      have hHead :
          patches k =
            createPatch (t.task.run m₀) t.maps.writeMap :=
        h 0 t rfl
      have hRest : Published patches (k + 1) rest := by
        intro i u hu
        have hAt := h (i + 1) u hu
        rw [← Nat.add_assoc, Nat.add_right_comm] at hAt
        exact hAt
      rw [List.length_cons, List.range'_succ, List.foldl_cons,
        hHead, applyPatch_eq_layer t.wellFormed.writes
          t.writes_eq, ih (k + 1) hRest]
      rfl

------------------------------------------------------------
-- The Checks
------------------------------------------------------------

/- The union's tasks have taken part before the others. -/
structure MergedBefore
    {m₀ : Memory}
    (done : List (MergeTask m₀))
    (wu : RangeMap Bytes) : Prop where
  union : UnionOf (writesOf (mapsOfTasks done)) wu
  independent :
    Transaction.Independent m₀ (transactionsOf done)

/- `ppr_is_correct` with nothing received returns. -/
theorem pprIsCorrect_returns
    {done : List TaskMaps}
    {wu : RangeMap Bytes}
    {t : TaskMaps}
    (pprIndex : Nat)
    (hUnion : UnionOf (writesOf done) wu)
    (hTask : t.WellFormed)
    (hAgree : WritesAgree (writesOf (done ++ [t]))) :
    ∃ st passed,
      pprIsCorrect (freshCheck wu) t.readMap t.writeMap
        pprIndex = .ret (st, passed) := by
  have hNone : (freshCheck wu).receivedNUsed.ranges = [] :=
    ranges_initEmptyMap
  rcases checkForOverlap_returns
      (show (freshCheck wu).writeUnion.Keeps 0 from
        hUnion.keeps)
      (show (freshCheck wu).received.Keeps 0 from
        keeps_initEmptyMap 0)
      hTask.reads hTask.reads_pos
      (show (freshCheck wu).receivedNUsed.Keeps 0 from
        keeps_initEmptyMap 0)
      (by simp [hNone]) with
    ⟨st₁, conflict, hCheck⟩
  rcases checkForOverlap_eq_zero hUnion.keeps hTask.reads
      hTask.reads_pos hCheck with
    ⟨hRanges, hSize, _⟩
  unfold pprIsCorrect
  simp only [hCheck, Outcome.ret_bind]
  by_cases hConflict : conflict ≠ 0
  · exact ⟨st₁, false, if_pos hConflict⟩
  · rw [if_neg hConflict]
    have hAgree' :
        WritesAgree
          (writesOf done ++ [[] ++ t.writeMap.ranges]) := by
      simpa [writesOf] using hAgree
    rcases foldlM_unionAddRange pprIndex []
        t.writeMap.ranges
        (hUnion.of_ranges hRanges hSize).push
        hTask.writes.apart.valid hAgree' with
      ⟨wu', hFold, _⟩
    exact ⟨{ st₁ with writeUnion := wu' }, true, by
      rw [hFold]
      rfl⟩

/- One task whose check passes. -/
theorem MergedBefore.push
    {m₀ : Memory}
    {done : List (MergeTask m₀)}
    {wu : RangeMap Bytes}
    {t : MergeTask m₀}
    {pprIndex : Nat}
    {st : CheckState}
    (h : MergedBefore done wu)
    (hAgree :
      WritesAgree (writesOf (mapsOfTasks (done ++ [t]))))
    (hCheck : pprIsCorrect (freshCheck wu) t.maps.readMap
      t.maps.writeMap pprIndex = .ret (st, true)) :
    MergedBefore (done ++ [t]) st.writeUnion := by
  rcases pprIsCorrect_spec h.union t.wellFormed hCheck with
    ⟨hAnswer, _, hPass⟩
  have hFree := hAnswer.mp rfl
  have hMaps :
      mapsOfTasks (done ++ [t]) =
        mapsOfTasks done ++ [t.maps] := by
    simp [mapsOfTasks]
  constructor
  · rw [hMaps] at hAgree ⊢
    exact hPass rfl hAgree
  · have hTrans :
        transactionsOf (done ++ [t]) =
          transactionsOf done ++ [t.task] := by
      simp [transactionsOf]
    rw [hTrans, Transaction.Independent,
      List.pairwise_append]
    refine ⟨h.independent, List.pairwise_singleton _ _, ?_⟩
    intro u hu v hv
    rw [List.mem_singleton] at hv
    rw [hv]
    rcases List.mem_map.mp hu with ⟨s, hs, rfl⟩
    apply hFree.mono t.reads_subset
    rw [h.union.covers, ← s.writes_eq]
    intro a ha
    refine ⟨s.maps.writeMap.ranges, ?_, ha⟩
    exact List.mem_map_of_mem (List.mem_map_of_mem hs)

/-
  The tasks return, and where all of them pass they are
  independent and their patches stand in their slots.
-/
theorem mergeTasks_spec
    {m₀ : Memory}
    (pprIndex : Nat)
    (rest done : List (MergeTask m₀))
    {wu : RangeMap Bytes}
    {patches : Nat → RangeMap Bytes}
    (h : MergedBefore done wu)
    (hPublished : Published patches 0 done)
    (hAgree :
      WritesAgree (writesOf (mapsOfTasks (done ++ rest)))) :
    ∃ passed wu' patches',
      mergeTasks pprIndex done.length rest wu patches =
        .ret (passed, wu', patches') ∧
      (passed = true →
        Transaction.Independent m₀
          (transactionsOf (done ++ rest)) ∧
        Published patches' 0 (done ++ rest)) := by
  induction rest generalizing done wu patches with
  | nil =>
      refine ⟨true, wu, patches, rfl, ?_⟩
      intro _
      rw [List.append_nil]
      exact ⟨h.independent, hPublished⟩
  | cons t rest ih =>
      have hHead :
          WritesAgree
            (writesOf (mapsOfTasks (done ++ [t]))) := by
        apply hAgree.mono
        intro u hu
        simp only [mapsOfTasks, List.map_append, List.map_cons,
          List.map_nil, List.mem_append, List.mem_cons] at hu ⊢
        tauto
      have hHead' :
          WritesAgree
            (writesOf (mapsOfTasks done ++ [t.maps])) := by
        simpa [mapsOfTasks] using hHead
      rcases pprIsCorrect_returns (pprIndex + done.length)
          h.union t.wellFormed hHead' with
        ⟨st, passed, hCheck⟩
      simp only [mergeTasks, hCheck, Outcome.ret_bind]
      cases passed with
      | false => exact ⟨false, _, _, rfl, by simp⟩
      | true =>
          have hNext : Published
              (pprCommit patches done.length (t.task.run m₀)
                t.maps.writeMap) 0 (done ++ [t]) := by
            intro i u hu
            unfold pprCommit
            rw [Nat.zero_add]
            by_cases hLast : i = done.length
            · rw [hLast, Function.update_self]
              rw [hLast, List.getElem?_concat_length,
                Option.some.injEq] at hu
              rw [hu]
            · rw [Function.update_of_ne hLast]
              have hIn : i < done.length := by
                have hLt := (List.getElem?_eq_some_iff.mp
                  hu).1
                rw [List.length_append,
                  List.length_singleton] at hLt
                omega
              rw [List.getElem?_append_left hIn] at hu
              have hAt := hPublished i u hu
              rw [Nat.zero_add] at hAt
              exact hAt
          rcases ih (done ++ [t]) (h.push hHead hCheck) hNext
              (by simpa using hAgree) with
            ⟨passed, wu', patches', hRun, hAll⟩
          rw [List.length_append,
            List.length_singleton] at hRun
          rw [List.append_assoc,
            List.singleton_append] at hAll
          exact ⟨passed, wu', patches', hRun, hAll⟩

/-
  Tasks with equal or disjoint write ranges, from an empty
  write union: their checks and commits return, and where
  all checks pass, the group commit of the last task leaves
  it the memory of running the tasks in turn.
-/
theorem merge_serialisable
    {m₀ : Memory}
    (pprIndex : Nat)
    (patches : Nat → RangeMap Bytes)
    (tasks : List (MergeTask m₀))
    (last : MergeTask m₀)
    (hAgree : WritesAgree
      (writesOf (mapsOfTasks (tasks ++ [last])))) :
    ∃ passed wu' patches',
      mergeTasks pprIndex 0 (tasks ++ [last]) initEmptyMap
          patches = .ret (passed, wu', patches') ∧
      (passed = true →
        (pprGroupCommit patches' tasks.length
            (last.task.run m₀)).2 =
          runInTurn (tasks ++ [last])) := by
  have hStart :
      MergedBefore ([] : List (MergeTask m₀))
        initEmptyMap :=
    ⟨unionOf_nil, List.Pairwise.nil⟩
  rcases mergeTasks_spec pprIndex (tasks ++ [last]) []
      hStart (by intro i t ht; cases ht)
      (by simpa using hAgree) with
    ⟨passed, wu', patches', hRun, hAll⟩
  refine ⟨passed, wu', patches', hRun, ?_⟩
  intro hPassed
  rcases hAll hPassed with ⟨hIndependent, hPublished⟩
  rw [List.nil_append] at hIndependent hPublished
  have hLength :
      (tasks ++ [last]).length = tasks.length + 1 := by
    simp
  have hFold := foldl_applyPatch_published 0
    (tasks ++ [last]) hPublished (last.task.run m₀)
  rw [hLength, ← List.range_eq_range'] at hFold
  have hOwn :
      last.task ∈ transactionsOf (tasks ++ [last]) := by
    simp [transactionsOf]
  calc (pprGroupCommit patches' tasks.length
          (last.task.run m₀)).2
      = Transaction.replay m₀
          (transactionsOf (tasks ++ [last]))
          (last.task.run m₀) := hFold
    _ = Transaction.replay m₀
          (transactionsOf (tasks ++ [last])) m₀ :=
        Transaction.replay_onto_own m₀ _ hOwn
    _ = Transaction.serial
          (transactionsOf (tasks ++ [last])) m₀ :=
        (Transaction.serial_eq_replay m₀ _
          hIndependent).symm
    _ = runInTurn (tasks ++ [last]) :=
        (runInTurn_eq_serial _).symm

/- A task that copies the byte at `src` to `dst`. -/
def copyByte (src dst : Nat) : Transaction Nat UInt8 where
  run := fun m => Function.update m dst (m src)
  reads := fun _ => {src}
  writes := fun _ => {dst}
  frame := by
    intro m a ha
    exact Function.update_of_ne ha _ _
  determined := by
    intro m m' hEq
    refine ⟨rfl, ?_⟩
    intro a hCase
    subst hCase
    rw [Function.update_self, Function.update_self]
    exact (hEq rfl).symm

theorem covered_oneByte
    (addr : Nat) :
    (oneRange (newNode addr 1 none)).covered = {addr} := by
  ext a
  rw [RangeMap.covered, mem_covered]
  constructor
  · intro h
    rcases h with ⟨r, hr, ha⟩
    rw [List.mem_singleton.mp hr, MemRange.mem_addrs] at ha
    change addr ≤ a ∧ a < addr + 1 at ha
    rw [Set.mem_singleton_iff]
    omega
  · intro hEq
    subst hEq
    refine ⟨_, List.mem_cons_self, ?_⟩
    rw [MemRange.mem_addrs]
    change a ≤ a ∧ a < a + 1
    omega

/- The copying task with the two bytes as its maps. -/
def copyTask
    (m₀ : Memory)
    (src dst : Nat)
    (hSrc : 0 < src ∧ src + 1 < 2 ^ 64)
    (hDst : 0 < dst ∧ dst + 1 < 2 ^ 64) :
    MergeTask m₀ where
  task := copyByte src dst
  maps :=
    { readMap := oneRange (newNode src 1 none)
      writeMap := oneRange (newNode dst 1 none) }
  wellFormed :=
    { reads := oneRange_keeps ⟨Nat.one_pos, hSrc.2⟩
      writes := oneRange_keeps ⟨Nat.one_pos, hDst.2⟩
      reads_pos := by
        intro r hr
        rw [List.mem_singleton.mp hr]
        exact hSrc.1
      writes_pos := by
        intro r hr
        rw [List.mem_singleton.mp hr]
        exact hDst.1 }
  reads_subset := (covered_oneByte src).ge
  writes_eq := covered_oneByte dst

/- Two tasks that copy byte 16, the first to 8. -/
def firstCopy : MergeTask (fun _ => 7) :=
  copyTask _ 16 8 (by omega) (by omega)

def secondCopy : MergeTask (fun _ => 7) :=
  copyTask _ 16 24 (by omega) (by omega)

/- Their checks pass and their merge is serial. -/
theorem merge_serialisable_copies :
    ∃ wu' patches',
      mergeTasks 0 0 ([firstCopy] ++ [secondCopy])
          initEmptyMap (fun _ => initEmptyMap) =
        .ret (true, wu', patches') ∧
      (pprGroupCommit patches' 1
          (secondCopy.task.run (fun _ => 7))).2 =
        runInTurn ([firstCopy] ++ [secondCopy]) := by
  have hAgree : WritesAgree (writesOf
      (mapsOfTasks ([firstCopy] ++ [secondCopy]))) := by
    unfold WritesAgree
    decide
  rcases merge_serialisable 0 (fun _ => initEmptyMap)
      [firstCopy] secondCopy hAgree with
    ⟨passed, wu', patches', hRun, hSerial⟩
  have hPassed : passed = true := by
    have hTrue : ∃ wu₁ patches₁,
        mergeTasks 0 0 ([firstCopy] ++ [secondCopy])
            initEmptyMap (fun _ => initEmptyMap) =
          .ret (true, wu₁, patches₁) :=
      ⟨_, _, rfl⟩
    rcases hTrue with ⟨wu₁, patches₁, hTrue⟩
    rw [hRun, Outcome.ret.injEq, Prod.mk.injEq] at hTrue
    exact hTrue.1
  refine ⟨wu', patches', ?_, hSerial hPassed⟩
  rw [hRun, hPassed]

end Cbop
