import Cbop.Group.History
import Cbop.Ppr.Region

/-
  A program run with all its processes: the group sizes of
  `bop_ppr_sync.c`, the length of the patch array of
  `bop_merge.c`, and groups that follow each other.

  Tasks move as in `Ppr/Protocol.lean`. A process may outlive
  its group and run beside the next one. Forks may fail, and
  the group size changes whenever a sequential process asks
  for it. The processes stand in the order of their forks.

  Main declarations:
    * `SyncData`, `pprGroupSetSize`, `PatchSizes`
    * `BopProcess`, `Program`
    * `serialStep`, `Program.taskAct`, `Program.undyAct`
    * `programStep`, `program`
-/

namespace Cbop

variable {ρ : Type}

------------------------------------------------------------
-- The Sizes
------------------------------------------------------------

/-
  `sync_data_t`, where `syncStatus` is the number of entries
  that are allocated for the array.
-/
structure SyncData where
  allocSize : Nat
  groupSize : Nat
  partialSize : Nat
  syncStatus : Nat
  held : Lock → Bool

def SyncData.setHeld
    (d : SyncData)
    (lock : Lock)
    (value : Bool) :
    SyncData :=
  { d with held := Function.update d.held lock value }

/- `ppr_sync_data_reset`. -/
def SyncData.pprSyncDataReset (d : SyncData) : SyncData :=
  { d with
    held := fun lock =>
      match lock with
      | .specChecked i => i < d.allocSize || d.held lock
      | .dataCommitted i => i < d.allocSize || d.held lock
      | .undyCreated => true
      | .undyConceded => true
      | .sync => false
    partialSize := d.groupSize }

/-
  `ppr_group_set_size` behind its guards. The first call
  allocates `sync_data`.
-/
def pprGroupSetSize
    (sync : Option SyncData)
    (gsize : Nat) :
    SyncData :=
  let d := sync.getD
    { allocSize := gsize
      groupSize := 0
      partialSize := 0
      syncStatus := gsize
      held := fun _ => false }
  let d :=
    if d.groupSize < gsize then
      { d with syncStatus := gsize, allocSize := gsize }
    else
      d
  { d with groupSize := gsize }.pprSyncDataReset

/- The allocated slots of `patches`, and `num_patches`. -/
structure PatchSizes where
  allocated : Nat
  numPatches : Nat
deriving DecidableEq, Repr

def PatchArray.sizes (a : PatchArray) : PatchSizes where
  allocated := a.allocated
  numPatches := a.numPatches

/-
  `bop_merge_init` on the sizes; there are none before its
  first call.
-/
def bopMergeSizes
    (sizes : Option PatchSizes)
    (gs : Nat) :
    PatchSizes :=
  match sizes with
  | none => { allocated := gs, numPatches := gs }
  | some a =>
      if a.numPatches < gs then
        { allocated := gs, numPatches := gs }
      else
        { a with numPatches := gs }

theorem sizes_bopMergeCreate (gs : Nat) :
    (bopMergeCreate gs).sizes = bopMergeSizes none gs := rfl

theorem sizes_bopMergeInit
    (a : PatchArray)
    (gs : Nat)
    (fresh : Nat → RangeMap Bytes) :
    (bopMergeInit a gs fresh).sizes =
      bopMergeSizes (some a.sizes) gs := by
  by_cases hGrow : a.numPatches < gs <;>
    simp [bopMergeInit, bopMergeSizes, PatchArray.sizes, hGrow]

------------------------------------------------------------
-- Processes
------------------------------------------------------------

/-
  What a process is to its group: task `k`, or an understudy
  with its count of regions. Either may have become
  sequential.
-/
inductive Role (ρ : Type) where
| task (k : Nat) (pc : Pc ρ)
| undy (pc : UndyPc) (pprCount : Nat)
deriving DecidableEq, Repr

/- `task_status`. -/
def Role.taskStatus : Role ρ → TaskStatus
| .task _ .seq => .seq
| .task k _ => if k = 0 then .main else .spec
| .undy .seq _ => .seq
| .undy _ _ => .undy

/- The process is MAIN or a speculative task of a group. -/
def Role.inGroup : Role ρ → Bool
| .task _ pc => alive pc
| .undy _ _ => false

/- The process runs code of the program. -/
def Role.userCode : Role ρ → Bool
| .task _ .seq => true
| .task k pc => Cbop.userCode k pc
| .undy pc _ => pc = .running || pc = .seq

/- An assertion of the process fails, or it dies. -/
def Role.exit (why : Why) : Role ρ → Role ρ
| .task k _ => .task k (.exited why)
| .undy _ count => .undy .died count

/-
  A process: the mode and the patches, which it has its own
  copies of, and its pending signals.
-/
structure BopProcess (ρ : Type) where
  role : Role ρ
  bopMode : BopMode
  patches : Option PatchSizes
  usr1 : Bool
  usr2 : Bool
deriving DecidableEq, Repr

/- The child of a `fork`. -/
def BopProcess.forked
    (p : BopProcess ρ)
    (role : Role ρ) :
    BopProcess ρ :=
  { p with role := role, usr1 := false, usr2 := false }

/- The children that an effect of task `k` forks. -/
def BopProcess.children
    (p : BopProcess ρ)
    (k : Nat) :
    Effect → List (BopProcess ρ)
| .fork => [p.forked (.task (k + 1) .gap)]
| .spawnUndy => [p.forked (.undy .created 0)]
| _ => []

/- The processes of a run and what they share. -/
structure Program (ρ : Type) where
  sync : SyncData
  processes : List (BopProcess ρ)

/- Process `pid` is now `p`, and its children come last. -/
def Program.replace
    (s : Program ρ)
    (pid : Nat)
    (p : BopProcess ρ)
    (children : List (BopProcess ρ)) :
    Program ρ :=
  { s with processes := s.processes.set pid p ++ children }

/- `kill(0, SIGUSR1)`. -/
def Program.killAll1 (s : Program ρ) : Program ρ :=
  { s with
    processes := s.processes.map (fun p =>
      { p with usr1 := true }) }

/- `kill(0, SIGUSR2)`. -/
def Program.killAll2 (s : Program ρ) : Program ρ :=
  { s with
    processes := s.processes.map (fun p =>
      { p with usr2 := true }) }

/-
  `kill(-monitor_group, SIGUSR1)`: the first process leads
  the process group.
-/
def Program.killLeader (s : Program ρ) : Program ρ :=
  { s with
    processes := s.processes.modify 0 (fun p =>
      { p with usr1 := true }) }

------------------------------------------------------------
-- Tasks
------------------------------------------------------------

/-
  A step of task `k` in serial mode. The task is MAIN:
  nothing is forked in this mode.
-/
def serialStep
    (cfg : Group ρ)
    (k psize : Nat)
    (pc : Pc ρ) :
    Act → Option (Move ρ)
| .go =>
    match pc with
    | .gap => goTo .region
    | .region => goTo .taskCommit
    | .signalCommit =>
        -- still MAIN, so that the next begin is ignored
        some (.region, .release (.dataCommitted k),
          [.signalled k])
    | .lastTest =>
        if k = psize - 1 then goTo .groupCommit
        else goTo (.exited .clean)
    | .groupCommit =>
        some (.succFini, .quiet, [.groupCommitted k])
    | pc => taskGo cfg k psize pc
-- `BOP_abort_spec` and `BOP_abort_next_spec` return
| .abort => if mayAbort k pc then goTo pc else none
| .abortNext => if Cbop.userCode k pc then goTo pc else none
| act => taskStep cfg k psize pc act

/-
  The next step of a process that is task `k` at `pc`; its
  check adds `writes` to the write union.
-/
def Program.taskMove
    (s : Program ρ)
    (p : BopProcess ρ)
    (k : Nat)
    (pc : Pc ρ)
    (act : Act)
    (writes : List ρ) :
    Option (Move ρ) :=
  let cfg : Group ρ :=
    { size := s.sync.groupSize
      writes := fun _ => writes
      atomicSet := false
      mainLeads := true }
  match p.bopMode with
  | .parallel => taskStep cfg k s.sync.partialSize pc act
  | .serial => serialStep cfg k s.sync.partialSize pc act

/- An effect on `sync_data`. -/
def SyncData.apply
    (d : SyncData) :
    Effect → Option SyncData
| .acquire lock =>
    if d.held lock then none
    else some (d.setHeld lock true)
| .release lock => some (d.setHeld lock false)
| .writeSize psize => some { d with partialSize := psize }
| _ => some d

/- Process `pid` makes a move of task `k`. -/
def Program.moveTo
    (s : Program ρ)
    (pid : Nat)
    (p : BopProcess ρ)
    (k : Nat)
    (pc : Pc ρ)
    (effect : Effect) :
    Option (Program ρ) := do
  let sync ← s.sync.apply effect
  let q := { p with role := .task k pc }
  let s' := { s with sync := sync }.replace pid q
    (q.children k effect)
  pure (if effect = .killUndy then s'.killAll1 else s')

/- `SigUsr1` in task `k`. -/
def BopProcess.taskUsr1
    (p : BopProcess ρ)
    (k psize : Nat)
    (pc : Pc ρ) :
    BopProcess ρ :=
  if alive pc ∧ k ≠ psize - 1 then
    { p with role := .task k (.exited .usr1), usr1 := false }
  else
    { p with usr1 := false }

/- `SigUsr2` in task `k`. -/
def BopProcess.taskUsr2
    (p : BopProcess ρ)
    (k : Nat)
    (pc : Pc ρ) :
    BopProcess ρ :=
  if alive pc then
    { p with
      role := .task k (.exited (.usr2 (committing pc)))
      usr2 := false }
  else
    { p with usr2 := false }

/-
  A step of task `k`. The handlers do nothing in a task that
  has become sequential.
-/
def Program.taskAct
    (s : Program ρ)
    (pid : Nat)
    (p : BopProcess ρ)
    (k : Nat)
    (pc : Pc ρ)
    (writes : List ρ) :
    Act → Option (Program ρ)
| .usr1 =>
    if p.usr1 then
      some (s.replace pid
        (p.taskUsr1 k s.sync.partialSize pc) [])
    else none
| .usr2 =>
    if p.usr2 then some (s.replace pid (p.taskUsr2 k pc) [])
    else none
| act => do
    let (next, effect, _) ← s.taskMove p k pc act writes
    s.moveTo pid p k next effect

------------------------------------------------------------
-- The Understudy
------------------------------------------------------------

/- The next step of the understudy. -/
def Program.undyGo
    (s : Program ρ)
    (pid : Nat)
    (p : BopProcess ρ)
    (count : Nat) :
    UndyPc → Option (Program ρ)
| .created =>
    some ({ s with
      sync := s.sync.setHeld .undyCreated false }.replace
        pid { p with role := .undy .running count } [])
| .running =>
    let pc : UndyPc :=
      if count + 1 < s.sync.partialSize - 1 then .running
      else .killSpecs
    some (s.replace pid
      { p with role := .undy pc (count + 1) } [])
| .killSpecs =>
    some (s.replace pid
      { p with role := .undy .killMain count } []).killAll2
| .killMain =>
    some (s.replace pid
      { p with role := .undy .succFini count } []).killLeader
| .succFini =>
    some (s.replace pid
      { p with role := .undy .setSeq count } [])
| .setSeq =>
    some (s.replace pid
      { p with role := .undy .seq count } [])
| _ => none

/- A step of the understudy. -/
def Program.undyAct
    (s : Program ρ)
    (pid : Nat)
    (p : BopProcess ρ)
    (count : Nat)
    (pc : UndyPc) :
    Act → Option (Program ρ)
| .go => s.undyGo pid p count pc
| .usr1 =>
    if p.usr1 = false then none
    else if undyAlive pc then
      some ({ s with
        sync := s.sync.setHeld .undyConceded false }.replace
          pid
          { p with
            role := .undy .conceded count
            usr1 := false } [])
    else
      some (s.replace pid { p with usr1 := false } [])
| .usr2 =>
    if p.usr2 then
      some (s.replace pid { p with usr2 := false } [])
    else none
| .die =>
    if undyAlive pc then
      some (s.replace pid
        { p with role := .undy .died count } [])
    else none
| _ => none

------------------------------------------------------------
-- The Run of a Program
------------------------------------------------------------

/-
  What a process does: `BOP_set_group_size`, the begin of a
  group, a step of a task or an understudy in which no fork
  fails, or one in which the fork fails.
-/
inductive ProgramAct (ρ : Type) where
| setGroupSize (gsize : Nat)
| pprBegin
| act (act : Act) (writes : List ρ)
| failFork
deriving DecidableEq, Repr

/- `BOP_set_group_size`. -/
def Program.bopSetGroupSize
    (s : Program ρ)
    (pid : Nat)
    (p : BopProcess ρ)
    (gsize : Nat) :
    Option (Program ρ) :=
  if p.role.userCode = false then none
  else if 1 ≤ gsize ∧ gsize ≤ 100 then
    if p.role.taskStatus = .seq then
      some { s with
        sync := pprGroupSetSize (some s.sync) gsize }
    else
      -- not allowed unless by SEQ
      some s
  else
    some (s.replace pid
      { p with role := p.role.exit .assertion } [])

/-
  `_BOP_ppr_begin` in a sequential process, up to the end of
  `_ppr_group_init`.
-/
def Program.pprBegin
    (s : Program ρ)
    (pid : Nat)
    (p : BopProcess ρ) :
    Option (Program ρ) :=
  if p.role.taskStatus = .seq then
    some ({ s with
      sync := s.sync.pprSyncDataReset }.replace pid
        { p with
          role := .task 0 .gap
          patches :=
            some (bopMergeSizes p.patches s.sync.groupSize) }
        [])
  else none

/-
  A failing fork. MAIN goes on as a sequential process, also
  when it was to fork the understudy; a speculative task
  shrinks the group to the tasks up to itself.
-/
def Program.failFork
    (s : Program ρ)
    (pid : Nat)
    (p : BopProcess ρ) :
    Option (Program ρ) :=
  let toSerial :=
    { p with role := .task 0 .seq, bopMode := .serial }
  match p.bopMode, p.role with
  | .parallel, .task k .gap =>
      if s.sync.partialSize - 1 ≤ k then none
      else if k = 0 then some (s.replace pid toSerial [])
      else
        some (s.replace pid
          { p with
            role := .task k (.setSize (k + 1) .region) } [])
  | .parallel, .task 0 .region =>
      some (s.replace pid toSerial [])
  | _, _ => none

/- A step of process `pid`. -/
def programStep
    (s : Program ρ)
    (label : Nat × ProgramAct ρ) :
    Option (Program ρ) := do
  let p ← s.processes[label.1]?
  match label.2 with
  | .setGroupSize gsize => s.bopSetGroupSize label.1 p gsize
  | .pprBegin => s.pprBegin label.1 p
  | .failFork => s.failFork label.1 p
  | .act act writes =>
      match p.role with
      | .task k pc => s.taskAct label.1 p k pc writes act
      | .undy pc count => s.undyAct label.1 p count pc act

/- After `BOP_init`, with `BOP_GroupSize` at `gsize`. -/
def Program.init (gsize : Nat) : Program ρ where
  sync := pprGroupSetSize none gsize
  processes :=
    [ { role := .task 0 .seq
        bopMode := if gsize < 2 then .serial else .parallel
        patches := none
        usr1 := false
        usr2 := false } ]

/- The program as a machine. -/
def program
    (gsize : Nat) :
    Machine (Program ρ) (Nat × ProgramAct ρ) where
  start := Program.init gsize
  step := programStep

end Cbop
