import Cbop.Group.Program

/-
  The indices a program run uses on the arrays that have an
  entry per task.

  `group_size`, `alloc_size` and `num_patches` change by
  rules of their own. They agree as long as the group size
  stays the same while tasks run. After a failed fork MAIN is
  sequential and may change it beside the tasks it forked.

  Main declarations:
    * `InBounds`, `ResizesAlone`
    * `fits`, `SizesInv`, `sizesInv_step`
    * `in_bounds_of_resizes_alone`
-/

namespace Cbop

variable {ρ : Type}

------------------------------------------------------------
-- Indices
------------------------------------------------------------

/- The entry of `sync_status` that holds the lock. -/
def Lock.statusIndex : Lock → Option Nat
| .specChecked i => some i
| .dataCommitted i => some i
| _ => none

/- The entry of `sync_status` that a step uses. -/
def Effect.statusIndex : Effect → Option Nat
| .acquire lock => lock.statusIndex
| .release lock => lock.statusIndex
| _ => none

/- `ppr_commit` and `ppr_group_commit` use the slot `i`. -/
def usesPatch (k i : Nat) : Pc ρ → Prop
| .dataCommit => i = k
| .groupCommit => i ≤ k
| _ => False

/-
  The sizes are in order, every index that the next step of
  a task may use is in bounds, and the assertion at the start
  of `partial_group_set_size` holds where a task is about to
  check it.
-/
structure InBounds (s : Program ρ) : Prop where
  partial_pos : 1 ≤ s.sync.partialSize
  partial_le : s.sync.partialSize ≤ s.sync.groupSize
  group_le : s.sync.groupSize ≤ s.sync.allocSize
  allocated : s.sync.allocSize = s.sync.syncStatus
  status : ∀ p ∈ s.processes, ∀ k pc, p.role = .task k pc →
    ∀ act writes move,
      s.taskMove p k pc act writes = some move →
        ∀ i, move.2.1.statusIndex = some i →
          i < s.sync.allocSize
  patches : ∀ p ∈ s.processes, ∀ k pc, p.role = .task k pc →
    ∀ i, usesPatch k i pc →
      ∃ a, p.patches = some a ∧ i < a.allocated
  assertion : ∀ p ∈ s.processes, ∀ k psize next,
    p.role = .task k (.setSize psize next) →
      1 ≤ psize ∧ psize ≤ 100

/-
  A sequential process changes the group size, by a call that
  is accepted, only when no MAIN and no speculative task is
  there.
-/
def ResizesAlone
    (s : Program ρ)
    (label : Nat × ProgramAct ρ) :
    Prop :=
  ∀ p gsize, s.processes[label.1]? = some p →
    label.2 = .setGroupSize gsize →
    p.role.taskStatus = .seq →
    1 ≤ gsize → gsize ≤ 100 →
      gsize = s.sync.groupSize ∨
        ∀ q ∈ s.processes, q.role.inGroup = false

------------------------------------------------------------
-- The Invariant
------------------------------------------------------------

/-
  What the point of task `k` says about a group of `gs`
  tasks. The points after a test of `partial_size` remember
  what the test found.
-/
def fits (gs k : Nat) : Pc ρ → Prop
| .setSize p next => (1 ≤ p ∧ p ≤ gs) ∧ fits gs k next
| .setAcquire p next => (1 ≤ p ∧ p ≤ gs) ∧ fits gs k next
| .setWrite p next => (1 ≤ p ∧ p ≤ gs) ∧ fits gs k next
| .setRelease next => fits gs k next
| .dataCommit => k + 1 < gs
| .signalCommit => k + 1 < gs
| .waitNext => k + 1 < gs
| .waitNextRelease => k + 1 < gs
| .waitGroupAcquire i => i < gs
| _ => True

/- A process agrees with a group of `gs` tasks. -/
structure ProcessOk
    (gs : Nat)
    (p : BopProcess ρ) : Prop where
  patches : ∀ a, p.patches = some a →
    a.numPatches ≤ a.allocated
  task : ∀ k pc, p.role = .task k pc → alive pc = true →
    k < gs ∧ fits gs k pc ∧
      ∃ a, p.patches = some a ∧ gs ≤ a.allocated

/- The sizes agree with each other. -/
structure SizesOk (d : SyncData) : Prop where
  partial_pos : 1 ≤ d.partialSize
  partial_le : d.partialSize ≤ d.groupSize
  group_le : d.groupSize ≤ d.allocSize
  limit : d.groupSize ≤ 100
  allocated : d.allocSize = d.syncStatus

structure SizesInv (s : Program ρ) : Prop where
  sizes : SizesOk s.sync
  processes : ∀ p ∈ s.processes,
    ProcessOk s.sync.groupSize p

------------------------------------------------------------
-- Moves of a Task
------------------------------------------------------------

/- What a move of task `k` keeps in a group of `gs` tasks. -/
structure MoveFits
    (gs k : Nat)
    (move : Move ρ) : Prop where
  next : fits gs k move.1
  status : ∀ i, move.2.1.statusIndex = some i → i < gs
  size : ∀ p, move.2.1 = .writeSize p → 1 ≤ p ∧ p ≤ gs
  fork : move.2.1 = .fork → k + 1 < gs

theorem TaskMove.fits
    {cfg : Group ρ}
    {gs k psize : Nat}
    {pc : Pc ρ}
    {act : Act}
    {move : Move ρ}
    (h : TaskMove cfg k psize pc act move)
    (hTask : k < gs)
    (hSize : psize ≤ gs)
    (hFits : Cbop.fits gs k pc) :
    MoveFits gs k move := by
  cases h <;>
    constructor <;>
      simp_all [Cbop.fits, Effect.statusIndex,
        Lock.statusIndex] <;>
      omega

/- Code runs in tasks that are there. -/
theorem alive_of_userCode
    {k : Nat}
    {pc : Pc ρ}
    (h : userCode k pc = true) :
    alive pc = true := by
  cases pc <;> simp_all [userCode, alive]

theorem alive_of_mayAbort
    {k : Nat}
    {pc : Pc ρ}
    (h : mayAbort k pc = true) :
    alive pc = true := by
  cases pc <;> simp_all [mayAbort, userCode, alive]

/- A task moves only while it is part of its group. -/
theorem TaskMove.alive
    {cfg : Group ρ}
    {k psize : Nat}
    {pc : Pc ρ}
    {act : Act}
    {move : Move ρ}
    (h : TaskMove cfg k psize pc act move) :
    Cbop.alive pc = true := by
  cases h with
  | work hUser => exact alive_of_userCode hUser
  | mainAbort hMay => exact alive_of_mayAbort hMay
  | mainAlone hMay => exact alive_of_mayAbort hMay
  | specAbort hMay => exact alive_of_mayAbort hMay
  | abortNext hUser => exact alive_of_userCode hUser
  | die hAlive => exact hAlive
  | _ => rfl

/-
  A step in serial mode is a move of the protocol or one of
  the edges that serial mode has instead.
-/
inductive SerialMove
    (cfg : Group ρ)
    (k psize : Nat) :
    Pc ρ → Act → Move ρ → Prop where
| same
    {pc : Pc ρ}
    {act : Act}
    {move : Move ρ} :
    TaskMove cfg k psize pc act move →
      SerialMove cfg k psize pc act move
| begins :
    SerialMove cfg k psize .gap .go (.region, .quiet, [])
| ends :
    SerialMove cfg k psize .region .go
      (.taskCommit, .quiet, [])
| signals :
    SerialMove cfg k psize .signalCommit .go
      (.region, .release (.dataCommitted k), [.signalled k])
| last :
    SerialMove cfg k psize .lastTest .go
      (.groupCommit, .quiet, [])
| leaves :
    SerialMove cfg k psize .lastTest .go
      (.exited .clean, .quiet, [])
| commits :
    SerialMove cfg k psize .groupCommit .go
      (.succFini, .quiet, [.groupCommitted k])
| ignored
    {pc : Pc ρ}
    {act : Act} :
    alive pc = true →
      SerialMove cfg k psize pc act (pc, .quiet, [])

theorem serialMove_of_serialStep
    {cfg : Group ρ}
    {k psize : Nat}
    {pc : Pc ρ}
    {act : Act}
    {move : Move ρ}
    (h : serialStep cfg k psize pc act = some move) :
    SerialMove cfg k psize pc act move := by
  unfold serialStep goTo at h
  split at h
  · split at h
    · simp only [Option.some.injEq] at h
      exact h ▸ .begins
    · simp only [Option.some.injEq] at h
      exact h ▸ .ends
    · simp only [Option.some.injEq] at h
      exact h ▸ .signals
    · split at h <;> simp only [Option.some.injEq] at h
      · exact h ▸ .last
      · exact h ▸ .leaves
    · simp only [Option.some.injEq] at h
      exact h ▸ .commits
    · exact .same (taskMove_of_taskGo h)
  · simp only [Option.ite_none_right_eq_some,
      Option.some.injEq] at h
    exact h.2 ▸ .ignored (alive_of_mayAbort h.1)
  · simp only [Option.ite_none_right_eq_some,
      Option.some.injEq] at h
    exact h.2 ▸ .ignored (alive_of_userCode h.1)
  · exact .same (taskMove_of_taskStep h)

theorem SerialMove.fits
    {cfg : Group ρ}
    {gs k psize : Nat}
    {pc : Pc ρ}
    {act : Act}
    {move : Move ρ}
    (h : SerialMove cfg k psize pc act move)
    (hTask : k < gs)
    (hSize : psize ≤ gs)
    (hFits : Cbop.fits gs k pc) :
    MoveFits gs k move := by
  cases h with
  | same hMove => exact hMove.fits hTask hSize hFits
  | ignored hAlive =>
      exact ⟨hFits, by simp [Effect.statusIndex], by simp,
        by simp⟩
  | _ =>
      constructor <;>
        simp_all [Cbop.fits, Effect.statusIndex,
          Lock.statusIndex]

theorem SerialMove.alive
    {cfg : Group ρ}
    {k psize : Nat}
    {pc : Pc ρ}
    {act : Act}
    {move : Move ρ}
    (h : SerialMove cfg k psize pc act move) :
    Cbop.alive pc = true := by
  cases h with
  | same hMove => exact hMove.alive
  | ignored hAlive => exact hAlive
  | _ => rfl

theorem alive_of_taskMove
    {s : Program ρ}
    {p : BopProcess ρ}
    {k : Nat}
    {pc : Pc ρ}
    {act : Act}
    {writes : List ρ}
    {move : Move ρ}
    (h : s.taskMove p k pc act writes = some move) :
    alive pc = true := by
  unfold Program.taskMove at h
  split at h
  · exact (taskMove_of_taskStep h).alive
  · exact (serialMove_of_serialStep h).alive

/- Every move of a task that agrees with its group fits. -/
theorem moveFits_of_taskMove
    {s : Program ρ}
    {p : BopProcess ρ}
    {k : Nat}
    {pc : Pc ρ}
    {act : Act}
    {writes : List ρ}
    {move : Move ρ}
    (hInv : SizesInv s)
    (hTask : k < s.sync.groupSize)
    (hFits : fits s.sync.groupSize k pc)
    (h : s.taskMove p k pc act writes = some move) :
    MoveFits s.sync.groupSize k move := by
  unfold Program.taskMove at h
  split at h
  · exact (taskMove_of_taskStep h).fits hTask
      hInv.sizes.partial_le hFits
  · exact (serialMove_of_serialStep h).fits hTask
      hInv.sizes.partial_le hFits

------------------------------------------------------------
-- Processes and Sizes
------------------------------------------------------------

/- Pending signals and the mode say nothing about sizes. -/
theorem ProcessOk.congr
    {gs : Nat}
    {p q : BopProcess ρ}
    (h : ProcessOk gs p)
    (hRole : q.role = p.role)
    (hPatches : q.patches = p.patches) :
    ProcessOk gs q := by
  constructor
  · rw [hPatches]
    exact h.patches
  · rw [hRole, hPatches]
    exact h.task

/- A process that is no task of a group. -/
theorem ProcessOk.outside
    {gs gs' : Nat}
    {p q : BopProcess ρ}
    (h : ProcessOk gs p)
    (hPatches : q.patches = p.patches)
    (hOutside : q.role.inGroup = false) :
    ProcessOk gs' q := by
  constructor
  · rw [hPatches]
    exact h.patches
  · intro k pc hRole hAlive
    rw [hRole] at hOutside
    exact absurd (hAlive.symm.trans hOutside) (by simp)

/- A process becomes a task, or moves as one. -/
theorem ProcessOk.task_of_fits
    {gs k : Nat}
    {p q : BopProcess ρ}
    {pc : Pc ρ}
    {a : PatchSizes}
    (h : ProcessOk gs p)
    (hPatches : q.patches = p.patches)
    (hRole : q.role = .task k pc)
    (hArray : p.patches = some a)
    (hSlots : gs ≤ a.allocated)
    (hTask : k < gs)
    (hFits : fits gs k pc) :
    ProcessOk gs q := by
  constructor
  · rw [hPatches]
    exact h.patches
  · intro i pc' hTask' _
    rw [hRole, Role.task.injEq] at hTask'
    rcases hTask' with ⟨rfl, rfl⟩
    exact ⟨hTask, hFits, a, hPatches.trans hArray, hSlots⟩

/- The array of patches grows to the group size. -/
theorem bopMergeSizes_spec
    (gs : Nat)
    {sizes : Option PatchSizes}
    (h : ∀ a, sizes = some a → a.numPatches ≤ a.allocated) :
    (bopMergeSizes sizes gs).numPatches = gs ∧
      gs ≤ (bopMergeSizes sizes gs).allocated := by
  cases sizes with
  | none => exact ⟨rfl, Nat.le_refl _⟩
  | some a =>
      have hLe := h a rfl
      by_cases hGrow : a.numPatches < gs
      · simp [bopMergeSizes, hGrow]
      · simp only [bopMergeSizes, if_neg hGrow, true_and]
        omega

theorem sizesOk_reset
    {d : SyncData}
    (h : SizesOk d) :
    SizesOk d.pprSyncDataReset where
  partial_pos := Nat.le_trans h.partial_pos h.partial_le
  partial_le := Nat.le_refl _
  group_le := h.group_le
  limit := h.limit
  allocated := h.allocated

/- The array of entries covers the new group size. -/
theorem sizesOk_resize
    {d : SyncData}
    {gsize : Nat}
    (h : SizesOk d)
    (hLow : 1 ≤ gsize)
    (hHigh : gsize ≤ 100) :
    SizesOk (pprGroupSetSize (some d) gsize) := by
  have hGroup := h.group_le
  by_cases hGrow : d.groupSize < gsize
  · constructor <;>
      simp [pprGroupSetSize, SyncData.pprSyncDataReset,
        hGrow, hLow, hHigh]
  · constructor <;>
      simp only [pprGroupSetSize,
        SyncData.pprSyncDataReset, Option.getD_some,
        if_neg hGrow]
    · exact hLow
    · exact Nat.le_refl _
    · omega
    · exact hHigh
    · exact h.allocated

theorem SizesOk.setHeld
    {d : SyncData}
    (h : SizesOk d)
    (lock : Lock)
    (value : Bool) :
    SizesOk (d.setHeld lock value) :=
  ⟨h.partial_pos, h.partial_le, h.group_le, h.limit,
    h.allocated⟩

theorem sizesOk_apply
    {d d' : SyncData}
    {effect : Effect}
    (h : SizesOk d)
    (hSize : ∀ p, effect = .writeSize p →
      1 ≤ p ∧ p ≤ d.groupSize)
    (hApply : d.apply effect = some d') :
    SizesOk d' ∧ d'.groupSize = d.groupSize := by
  unfold SyncData.apply at hApply
  split at hApply
  · rename_i lock
    split at hApply
    · cases hApply
    · simp only [Option.some.injEq] at hApply
      exact hApply ▸ ⟨h.setHeld lock true, rfl⟩
  · rename_i lock
    simp only [Option.some.injEq] at hApply
    exact hApply ▸ ⟨h.setHeld lock false, rfl⟩
  · rename_i psize
    simp only [Option.some.injEq] at hApply
    rcases hSize psize rfl with ⟨hLow, hHigh⟩
    exact hApply ▸ ⟨⟨hLow, hHigh, h.group_le, h.limit,
      h.allocated⟩, rfl⟩
  · simp only [Option.some.injEq] at hApply
    exact hApply ▸ ⟨h, rfl⟩

------------------------------------------------------------
-- Steps
------------------------------------------------------------

section Steps

variable {s : Program ρ}

/- One process changes and forks others. -/
theorem SizesInv.replace
    {d : SyncData}
    {pid : Nat}
    {q : BopProcess ρ}
    {children : List (BopProcess ρ)}
    (hInv : SizesInv s)
    (hSizes : SizesOk d)
    (hGroup : d.groupSize = s.sync.groupSize)
    (hOk : ProcessOk s.sync.groupSize q)
    (hChildren : ∀ c ∈ children,
      ProcessOk s.sync.groupSize c) :
    SizesInv
      ({ s with sync := d }.replace pid q children) := by
  refine ⟨hSizes, ?_⟩
  intro p hMem
  change ProcessOk d.groupSize p
  rw [hGroup]
  rcases List.mem_append.mp hMem with hOld | hNew
  · rcases List.mem_or_eq_of_mem_set hOld with hOld | rfl
    · exact hInv.processes p hOld
    · exact hOk
  · exact hChildren p hNew

/- One process changes, and nothing else. -/
theorem SizesInv.change
    {pid : Nat}
    {q : BopProcess ρ}
    (hInv : SizesInv s)
    (hOk : ProcessOk s.sync.groupSize q) :
    SizesInv (s.replace pid q []) :=
  hInv.replace hInv.sizes rfl hOk (by simp)

/- Signals become pending in some processes. -/
theorem SizesInv.signal
    {s' : Program ρ}
    (hInv : SizesInv s)
    (hSync : s'.sync = s.sync)
    (hSame : ∀ p ∈ s'.processes, ∃ q ∈ s.processes,
      p.role = q.role ∧ p.patches = q.patches) :
    SizesInv s' := by
  constructor
  · rw [hSync]
    exact hInv.sizes
  · intro p hMem
    rcases hSame p hMem with ⟨q, hq, hRole, hPatches⟩
    rw [hSync]
    exact (hInv.processes q hq).congr hRole hPatches

theorem SizesInv.killAll1
    (hInv : SizesInv s) :
    SizesInv s.killAll1 := by
  refine SizesInv.signal hInv rfl ?_
  intro p hMem
  rcases List.mem_map.mp hMem with ⟨q, hq, rfl⟩
  exact ⟨q, hq, rfl, rfl⟩

theorem SizesInv.killAll2
    (hInv : SizesInv s) :
    SizesInv s.killAll2 := by
  refine SizesInv.signal hInv rfl ?_
  intro p hMem
  rcases List.mem_map.mp hMem with ⟨q, hq, rfl⟩
  exact ⟨q, hq, rfl, rfl⟩

theorem SizesInv.killLeader
    (hInv : SizesInv s) :
    SizesInv s.killLeader := by
  refine SizesInv.signal hInv rfl ?_
  change ∀ p ∈ s.processes.modify 0 _, _
  cases s.processes with
  | nil => simp
  | cons leader rest =>
      intro p hMem
      rcases List.mem_cons.mp hMem with rfl | hRest
      · exact ⟨leader, List.mem_cons_self, rfl, rfl⟩
      · exact ⟨p, List.mem_cons_of_mem _ hRest, rfl, rfl⟩

variable {s' : Program ρ}
variable {pid : Nat}
variable {p : BopProcess ρ}

/- The children of a task that moves. -/
theorem processOk_children
    {gs k : Nat}
    {q : BopProcess ρ}
    {a : PatchSizes}
    {effect : Effect}
    (hOk : ProcessOk gs p)
    (hPatches : q.patches = p.patches)
    (hArray : p.patches = some a)
    (hSlots : gs ≤ a.allocated)
    (hFork : effect = .fork → k + 1 < gs) :
    ∀ c ∈ q.children k effect, ProcessOk gs c := by
  intro c hMem
  unfold BopProcess.children at hMem
  split at hMem
  · rw [List.mem_singleton] at hMem
    subst hMem
    exact hOk.task_of_fits hPatches rfl hArray hSlots
      (hFork rfl) trivial
  · rw [List.mem_singleton] at hMem
    subst hMem
    exact hOk.outside hPatches rfl
  · exact absurd hMem List.not_mem_nil

theorem sizesInv_taskMove
    {k : Nat}
    {pc : Pc ρ}
    {act : Act}
    {writes : List ρ}
    {move : Move ρ}
    (hInv : SizesInv s)
    (hMem : p ∈ s.processes)
    (hRole : p.role = .task k pc)
    (hMove : s.taskMove p k pc act writes = some move)
    (h : s.moveTo pid p k move.1 move.2.1 = some s') :
    SizesInv s' := by
  have hOk := hInv.processes p hMem
  rcases hOk.task k pc hRole (alive_of_taskMove hMove) with
    ⟨hTask, hFits, a, hArray, hSlots⟩
  have hMoveFits :=
    moveFits_of_taskMove hInv hTask hFits hMove
  simp only [Program.moveTo, Option.bind_eq_bind,
    Option.bind_eq_some_iff, Option.pure_def,
    Option.some.injEq] at h
  rcases h with ⟨sync, hApply, hEq⟩
  rcases sizesOk_apply hInv.sizes hMoveFits.size hApply with
    ⟨hSizes, hGroup⟩
  let q := { p with role := .task k move.1 }
  have hNext : ProcessOk s.sync.groupSize q :=
    hOk.task_of_fits rfl rfl hArray hSlots hTask
      hMoveFits.next
  have hReplaced :
      SizesInv ({ s with sync := sync }.replace pid q
        (q.children k move.2.1)) :=
    hInv.replace hSizes hGroup hNext
      (processOk_children hOk rfl hArray hSlots
        hMoveFits.fork)
  rw [← hEq]
  split
  · exact hReplaced.killAll1
  · exact hReplaced

theorem sizesInv_taskAct
    {k : Nat}
    {pc : Pc ρ}
    {act : Act}
    {writes : List ρ}
    (hInv : SizesInv s)
    (hMem : p ∈ s.processes)
    (hRole : p.role = .task k pc)
    (h : s.taskAct pid p k pc writes act = some s') :
    SizesInv s' := by
  have hOk := hInv.processes p hMem
  unfold Program.taskAct at h
  split at h
  · simp only [Option.ite_none_right_eq_some,
      Option.some.injEq] at h
    rw [← h.2]
    apply hInv.change
    unfold BopProcess.taskUsr1
    split
    · exact hOk.outside rfl rfl
    · exact hOk.congr rfl rfl
  · simp only [Option.ite_none_right_eq_some,
      Option.some.injEq] at h
    rw [← h.2]
    apply hInv.change
    unfold BopProcess.taskUsr2
    split
    · exact hOk.outside rfl rfl
    · exact hOk.congr rfl rfl
  · simp only [Option.bind_eq_bind,
      Option.bind_eq_some_iff] at h
    rcases h with ⟨move, hMove, hTo⟩
    exact sizesInv_taskMove hInv hMem hRole hMove hTo

/- An understudy uses no size. -/
theorem sizesInv_undyAct
    {count : Nat}
    {pc : UndyPc}
    {act : Act}
    (hInv : SizesInv s)
    (hMem : p ∈ s.processes)
    (hRole : p.role = .undy pc count)
    (h : s.undyAct pid p count pc act = some s') :
    SizesInv s' := by
  have hOk := hInv.processes p hMem
  have hUndy : ∀ (q : BopProcess ρ),
      q.patches = p.patches → q.role.inGroup = false →
        SizesInv (s.replace pid q []) := by
    intro q hPatches hOut
    exact hInv.change (hOk.outside hPatches hOut)
  have hLock : ∀ (lock : Lock) (q : BopProcess ρ),
      q.patches = p.patches → q.role.inGroup = false →
        SizesInv ({ s with
          sync := s.sync.setHeld lock false }.replace
            pid q []) := by
    intro lock q hPatches hOut
    exact hInv.replace (hInv.sizes.setHeld lock false) rfl
      (hOk.outside hPatches hOut) (by simp)
  unfold Program.undyAct at h
  split at h
  · unfold Program.undyGo at h
    split at h <;>
      simp only [Option.some.injEq, reduceCtorEq] at h <;>
      rw [← h]
    · exact hLock _ _ rfl rfl
    · exact hUndy _ rfl rfl
    · exact (hUndy { p with role := .undy .killMain count }
        rfl rfl).killAll2
    · exact (hUndy { p with role := .undy .succFini count }
        rfl rfl).killLeader
    · exact hUndy _ rfl rfl
    · exact hUndy _ rfl rfl
  · split at h
    · cases h
    · split at h <;>
        simp only [Option.some.injEq] at h <;>
        rw [← h]
      · exact hLock _ _ rfl rfl
      · exact hInv.change (hOk.congr rfl rfl)
  · simp only [Option.ite_none_right_eq_some,
      Option.some.injEq] at h
    rw [← h.2]
    exact hInv.change (hOk.congr rfl rfl)
  · simp only [Option.ite_none_right_eq_some,
      Option.some.injEq] at h
    rw [← h.2]
    exact hUndy _ rfl rfl
  · cases h

/-
  A sequential process changes the group size while no task
  is there, or sets it to what it is.
-/
theorem sizesInv_setGroupSize
    {gsize : Nat}
    (hInv : SizesInv s)
    (hMem : p ∈ s.processes)
    (hAlone : p.role.taskStatus = .seq →
      1 ≤ gsize → gsize ≤ 100 →
        gsize = s.sync.groupSize ∨
          ∀ q ∈ s.processes, q.role.inGroup = false)
    (h : s.bopSetGroupSize pid p gsize = some s') :
    SizesInv s' := by
  have hOk := hInv.processes p hMem
  unfold Program.bopSetGroupSize at h
  split at h
  · cases h
  · split at h
    · rename_i hRange
      split at h <;> simp only [Option.some.injEq] at h <;>
        rw [← h]
      · rename_i hSeq
        refine ⟨sizesOk_resize hInv.sizes hRange.1 hRange.2,
          ?_⟩
        intro q hq
        change ProcessOk gsize q
        rcases hAlone hSeq hRange.1 hRange.2 with hSame | hNone
        · exact hSame ▸ hInv.processes q hq
        · exact (hInv.processes q hq).outside rfl
            (hNone q hq)
      · exact hInv
    · simp only [Option.some.injEq] at h
      rw [← h]
      apply hInv.change
      apply ProcessOk.outside hOk
      · rfl
      · change (p.role.exit .assertion).inGroup = false
        cases p.role <;> rfl

/- MAIN of a new group finds the sizes of that group. -/
theorem sizesInv_pprBegin
    (hInv : SizesInv s)
    (hMem : p ∈ s.processes)
    (h : s.pprBegin pid p = some s') :
    SizesInv s' := by
  have hOk := hInv.processes p hMem
  unfold Program.pprBegin at h
  simp only [Option.ite_none_right_eq_some,
    Option.some.injEq] at h
  rw [← h.2]
  rcases bopMergeSizes_spec s.sync.groupSize hOk.patches
    with ⟨hNum, hSlots⟩
  refine hInv.replace (sizesOk_reset hInv.sizes) rfl ?_
    (by simp)
  constructor
  · intro a hArray
    simp only [Option.some.injEq] at hArray
    rw [← hArray, hNum]
    exact hSlots
  · intro k pc hRole hAlive
    simp only [Role.task.injEq] at hRole
    rcases hRole with ⟨rfl, rfl⟩
    exact ⟨Nat.le_trans hInv.sizes.partial_pos
      hInv.sizes.partial_le, trivial, _, rfl, hSlots⟩

/- A failed fork shrinks the group or ends the task. -/
theorem sizesInv_failFork
    (hInv : SizesInv s)
    (hMem : p ∈ s.processes)
    (h : s.failFork pid p = some s') :
    SizesInv s' := by
  have hOk := hInv.processes p hMem
  unfold Program.failFork at h
  split at h
  · rename_i hRole
    split at h
    · cases h
    · split at h <;> simp only [Option.some.injEq] at h <;>
        rw [← h] <;> apply hInv.change
      · exact hOk.outside rfl rfl
      · rcases hOk.task _ _ hRole rfl with
          ⟨hTask, -, a, hArray, hSlots⟩
        exact hOk.task_of_fits rfl rfl hArray hSlots hTask
          ⟨⟨by omega, by omega⟩, trivial⟩
  · simp only [Option.some.injEq] at h
    rw [← h]
    exact hInv.change (hOk.outside rfl rfl)
  · cases h

theorem sizesInv_step
    {label : Nat × ProgramAct ρ}
    (hInv : SizesInv s)
    (hAlone : ResizesAlone s label)
    (h : programStep s label = some s') :
    SizesInv s' := by
  simp only [programStep, Option.bind_eq_bind,
    Option.bind_eq_some_iff] at h
  rcases h with ⟨p, hPid, h⟩
  have hMem := List.mem_of_getElem? hPid
  split at h
  · rename_i gsize hAct
    exact sizesInv_setGroupSize hInv hMem
      (hAlone p gsize hPid hAct) h
  · exact sizesInv_pprBegin hInv hMem h
  · exact sizesInv_failFork hInv hMem h
  · split at h
    · rename_i hRole
      exact sizesInv_taskAct hInv hMem hRole h
    · rename_i hRole
      exact sizesInv_undyAct hInv hMem hRole h

end Steps

------------------------------------------------------------
-- Runs
------------------------------------------------------------

theorem sizesInv_init
    {gsize : Nat}
    (hLow : 1 ≤ gsize)
    (hHigh : gsize ≤ 100) :
    SizesInv (Program.init gsize : Program ρ) := by
  constructor
  · have hPos : 0 < gsize := hLow
    constructor <;>
      simp [Program.init, pprGroupSetSize,
        SyncData.pprSyncDataReset, hPos, hHigh]
    omega
  · intro p hMem
    simp only [Program.init, List.mem_singleton] at hMem
    subst hMem
    constructor
    · simp
    · intro k pc hRole hAlive
      simp only [Role.task.injEq] at hRole
      rcases hRole with ⟨-, rfl⟩
      cases hAlive

theorem sizesInv_of_reachable
    {gsize : Nat}
    (hLow : 1 ≤ gsize)
    (hHigh : gsize ≤ 100)
    {s : Program ρ}
    (h : (program gsize).Reachable ResizesAlone s) :
    SizesInv s := by
  refine h.invariant SizesInv
    (sizesInv_init hLow hHigh) ?_
  intro s label s' _ hInv hAlone hStep
  exact sizesInv_step hInv hAlone hStep

/- A patch is used by a task of the group. -/
theorem alive_of_usesPatch
    {k i : Nat}
    {pc : Pc ρ}
    (h : usesPatch k i pc) :
    alive pc = true ∧ i ≤ k := by
  cases pc <;> simp_all [usesPatch, alive]

/- Sizes that agree keep the indices in bounds. -/
theorem inBounds_of_sizesInv
    {s : Program ρ}
    (hInv : SizesInv s) :
    InBounds s where
  partial_pos := hInv.sizes.partial_pos
  partial_le := hInv.sizes.partial_le
  group_le := hInv.sizes.group_le
  allocated := hInv.sizes.allocated
  status := by
    intro p hMem k pc hRole act writes move hMove i hIndex
    rcases (hInv.processes p hMem).task k pc hRole
      (alive_of_taskMove hMove) with ⟨hTask, hFits, -⟩
    have hMoveFits :=
      moveFits_of_taskMove hInv hTask hFits hMove
    exact Nat.lt_of_lt_of_le (hMoveFits.status i hIndex)
      hInv.sizes.group_le
  patches := by
    intro p hMem k pc hRole i hUses
    rcases alive_of_usesPatch hUses with ⟨hAlive, hLe⟩
    rcases (hInv.processes p hMem).task k pc hRole hAlive
      with ⟨hTask, -, a, hArray, hSlots⟩
    exact ⟨a, hArray, by omega⟩
  assertion := by
    intro p hMem k psize next hRole
    rcases (hInv.processes p hMem).task k _ hRole rfl with
      ⟨-, ⟨⟨hLow, hHigh⟩, -⟩, -⟩
    exact ⟨hLow, Nat.le_trans hHigh hInv.sizes.limit⟩

/-
  The indices stay in bounds in every run that changes the
  group size only while no MAIN and no speculative task is
  there.
-/
theorem in_bounds_of_resizes_alone
    {gsize : Nat}
    (hLow : 1 ≤ gsize)
    (hHigh : gsize ≤ 100)
    {s : Program ρ}
    (hReach : (program gsize).Reachable ResizesAlone s) :
    InBounds s :=
  inBounds_of_sizesInv
    (sizesInv_of_reachable hLow hHigh hReach)

/- One process after another takes a step. -/
def goAll (pids : List Nat) : List (Nat × ProgramAct Unit) :=
  pids.map (fun pid => (pid, .act .go []))

/-
  The group size is shrunk and grown before the first group,
  which then runs with a failed fork.
-/
theorem in_bounds_shrunk_and_grown :
    ∃ s : Program Unit,
      (program 3).Reachable ResizesAlone s ∧
        s.sync.groupSize = 4 ∧ s.sync.partialSize = 3 ∧
        s.processes.length = 3 ∧ InBounds s := by
  have hRun := Machine.exists_reachable_of_run
    (program 3 : Machine (Program Unit) _) ResizesAlone
    (fun s label =>
      match label.2 with
      | .setGroupSize gsize =>
          gsize = s.sync.groupSize ||
            s.processes.all (fun q => !q.role.inGroup)
      | _ => true)
    (by
      intro s label hTest p gsize _ hAct _ _ _
      simpa [hAct] using hTest)
    ([(0, .setGroupSize 2), (0, .setGroupSize 4),
        (0, .pprBegin)] ++ goAll [0, 1] ++ [(2, .failFork)] ++
      goAll [2, 2, 2, 2])
    (fun s => s.sync.groupSize = 4 ∧
      s.sync.partialSize = 3 ∧ s.processes.length = 3)
    (by decide)
  rcases hRun with ⟨s, hReach, hSizes⟩
  simp only [decide_eq_true_eq] at hSizes
  exact ⟨s, hReach, hSizes.1, hSizes.2.1, hSizes.2.2,
    in_bounds_of_resizes_alone (by decide) (by decide) hReach⟩

/-
  MAIN forks two tasks, fails to fork the understudy, and
  sets the group size to one and then to two. The task that
  is left releases a lock behind the end of the array.
-/
theorem out_of_bounds_after_failed_fork :
    ∃ s : Program Unit,
      (program 3).Reachable Machine.anyStep s ∧
        ¬InBounds s := by
  let leftOver : BopProcess Unit :=
    { role := .task 2 .abortSignal
      bopMode := .parallel
      patches := some { allocated := 3, numPatches := 3 }
      usr1 := false
      usr2 := false }
  have hRun := Machine.exists_reachable_of_run
    (program 3 : Machine (Program Unit) _) Machine.anyStep
    (fun _ _ => true) (fun _ _ _ => trivial)
    ([(0, .pprBegin)] ++ goAll [0, 1, 2] ++
      [(0, .failFork), (0, .setGroupSize 1),
        (0, .setGroupSize 2)] ++ goAll [2, 2, 2])
    (fun s => s.processes[2]? = some leftOver ∧
      s.sync.allocSize = 2)
    (by decide)
  rcases hRun with ⟨s, hReach, hEnd⟩
  simp only [decide_eq_true_eq] at hEnd
  rcases hEnd with ⟨hLeft, hAlloc⟩
  refine ⟨s, hReach, ?_⟩
  intro hBounds
  have hIndex := hBounds.status leftOver
    (List.mem_of_getElem? hLeft) 2 .abortSignal rfl
    .go [] _ rfl 2 rfl
  rw [hAlloc] at hIndex
  exact Nat.lt_irrefl 2 hIndex

end Cbop
