import Cbop.Lib.Machine

/-
  The protocol of one parallel task group, after `bop_ppr.c`
  and `bop_ppr_sync.c`.

  MAIN is task 0, the speculative tasks are 1, 2, ..., and
  MAIN forks the understudy at the end of its region. Every
  lock operation, every read or write of `partial_size` and
  every port call is one step. Signals are pending until
  their receiver handles them, at any later step.

  Forks succeed, and the mode is PARALLEL.

  Main declarations:
    * `Pc`, `UndyPc`, `State`
    * `taskGo`, `taskStep`, `undyGo`
    * `step`, `protocol`
-/

namespace Cbop

------------------------------------------------------------
-- Control Points
------------------------------------------------------------

/- A task of the group, or the understudy. -/
inductive Proc where
| task (k : Nat)
| undy
deriving DecidableEq, Repr

/- The locks of `sync_data_t`. -/
inductive Lock where
| specChecked (i : Nat)
| dataCommitted (i : Nat)
| undyCreated
| undyConceded
| sync
deriving DecidableEq, Repr

/-
  Why a process left the group. A task that SIGUSR2 ends is
  marked if it was inside `_task_group_commit`.
-/
inductive Why where
| clean
| assertion
| died
| usr1
| usr2 (committing : Bool)
deriving DecidableEq, Repr

/-
  Where MAIN or a speculative task stands. The points of
  `partial_group_set_size` carry the new size and the point
  at which the caller goes on.
-/
inductive Pc (ρ : Type) where
| unborn
-- before `_BOP_ppr_begin`, and between it and its end
| gap
| region
-- `partial_group_set_size`
| setSize (psize : Nat) (next : Pc ρ)
| setAcquire (psize : Nat) (next : Pc ρ)
| setWrite (psize : Nat) (next : Pc ρ)
| setRelease (next : Pc ρ)
-- `signal_commit_done` of `BOP_abort_spec`
| abortSignal
-- `ppr_task_commit` and `_ppr_check_correctness`
| taskCommit
| waitPrior
| checkStart
| checking
| inserting (rest : List ρ)
| checked (passed : Bool)
| commitTest
| dataCommit
| signalCommit
| waitNext
| waitNextRelease
| lastTest
-- `_task_group_commit`
| waitGroup (i : Nat)
| waitGroupAcquire (i : Nat)
| groupCommit
| groupSignal
| waitUndyCreated
| killUndy
| waitUndyConceded
| succFini
| seq
| exited (why : Why)
deriving DecidableEq, Repr

/- Where the understudy stands. -/
inductive UndyPc where
| unborn
| created
| running
-- `post_ppr_undy` past the finish line
| killSpecs
| killMain
| succFini
| setSeq
| seq
| conceded
| died
deriving DecidableEq, Repr

/-
  What the run of a group records. A task is `signalled`
  when it releases its own `data_committed` lock.
-/
inductive Event (ρ : Type) where
| checkStarted (k : Nat)
| inserted (k : Nat) (range : ρ)
| checkEnded (k : Nat) (passed : Bool)
| aborted (k : Nat)
| dataCommitted (k : Nat)
| groupCommitted (k : Nat)
| signalled (k : Nat)
| becameSeq (proc : Proc)
deriving DecidableEq, Repr

/- A step's effect on the state the processes share. -/
inductive Effect where
| quiet
| acquire (lock : Lock)
| release (lock : Lock)
| writeSize (psize : Nat)
| fork
| spawnUndy
| killUndy
deriving DecidableEq, Repr

/-
  What makes a process take a step. `work` is a step of the
  program's own code, `fail` a check that finds a conflict.
-/
inductive Act where
| go
| work
| fail
| abort
| abortNext
| usr1
| usr2
| die
deriving DecidableEq, Repr

------------------------------------------------------------
-- The Steps of a Task
------------------------------------------------------------

/-
  One group: its size, the ranges each task's check adds to
  the write union, whether `partial_group_set_size` is one
  atomic step, and whether MAIN leads the process group.
-/
structure Group (ρ : Type) where
  size : Nat
  writes : Nat → List ρ
  atomicSet : Bool
  mainLeads : Bool

variable {ρ : Type}

/- A task's next point, its effect and what it records. -/
abbrev Move (ρ : Type) := Pc ρ × Effect × List (Event ρ)

/- A move without an effect on shared state. -/
def goTo (pc : Pc ρ) : Option (Move ρ) :=
  some (pc, .quiet, [])

/-
  The next step of task `k` when it reads `psize` as
  `partial_size`.
-/
def taskGo
    (cfg : Group ρ)
    (k psize : Nat) :
    Pc ρ → Option (Move ρ)
| .gap =>
    -- no spawn when reaching the group size
    if psize - 1 ≤ k then goTo .region
    else some (.region, .fork, [])
| .region =>
    if k = 0 then some (.taskCommit, .spawnUndy, [])
    else goTo .taskCommit
| .setSize p next =>
    if p < psize then
      if cfg.atomicSet then some (next, .writeSize p, [])
      else goTo (.setAcquire p next)
    else goTo next
| .setAcquire p next =>
    some (.setWrite p next, .acquire .sync, [])
| .setWrite p next =>
    some (.setRelease next, .writeSize p, [])
| .setRelease next => some (next, .release .sync, [])
| .abortSignal =>
    some (.exited .clean, .release (.dataCommitted k),
      [.signalled k])
| .taskCommit =>
    if psize ≤ k then
      -- `exit`, whose handler aborts a speculative task
      if k = 0 then goTo (.exited .clean)
      else
        some (.setSize k .abortSignal, .quiet, [.aborted k])
    else if k = 0 then goTo .checkStart
    else goTo .waitPrior
| .waitPrior =>
    some (.checkStart, .acquire (.specChecked (k - 1)), [])
| .checkStart =>
    some (.checking, .quiet, [.checkStarted k])
| .checking => goTo (.inserting (cfg.writes k))
| .inserting (range :: rest) =>
    some (.inserting rest, .quiet, [.inserted k range])
| .inserting [] =>
    some (.checked true, .quiet, [.checkEnded k true])
| .checked true =>
    some (.commitTest, .release (.specChecked k), [])
| .checked false =>
    if k = 0 then goTo (.exited .assertion)
    else
      some (.setSize k .abortSignal,
        .release (.specChecked k), [.aborted k])
| .commitTest =>
    if k < psize - 1 then goTo .dataCommit
    else goTo .lastTest
| .dataCommit =>
    some (.signalCommit, .quiet, [.dataCommitted k])
| .signalCommit =>
    some (.waitNext, .release (.dataCommitted k),
      [.signalled k])
| .waitNext =>
    some (.waitNextRelease,
      .acquire (.dataCommitted (k + 1)), [])
| .waitNextRelease =>
    some (.lastTest, .release (.dataCommitted (k + 1)), [])
| .lastTest =>
    -- MAIN leaves in both cases: UNDY has run ahead
    if k = psize - 1 ∧ k ≠ 0 then goTo (.waitGroup 0)
    else goTo (.exited .clean)
| .waitGroup i =>
    if i < psize - 1 then goTo (.waitGroupAcquire i)
    else goTo .groupCommit
| .waitGroupAcquire i =>
    some (.waitGroup (i + 1),
      .acquire (.dataCommitted i), [])
| .groupCommit =>
    some (.groupSignal, .quiet, [.groupCommitted k])
| .groupSignal =>
    some (.waitUndyCreated,
      .release (.dataCommitted k), [.signalled k])
| .waitUndyCreated =>
    some (.killUndy, .acquire .undyCreated, [])
| .killUndy => some (.waitUndyConceded, .killUndy, [])
| .waitUndyConceded =>
    some (.succFini, .acquire .undyConceded, [])
| .succFini =>
    some (.seq, .quiet, [.becameSeq (.task k)])
| .unborn => none
| .seq => none
| .exited _ => none

/- The task runs code of the program. -/
def userCode (k : Nat) : Pc ρ → Bool
| .gap => k ≠ 0
| .region => true
| _ => false

/- The task runs code that may call `BOP_abort_spec`. -/
def mayAbort (k : Nat) : Pc ρ → Bool
| .checking => true
| .inserting _ => true
| .dataCommit => true
| pc => userCode k pc

/- The process exists and is still part of the group. -/
def alive : Pc ρ → Bool
| .unborn => false
| .seq => false
| .exited _ => false
| _ => true

/- The task is inside `_task_group_commit`. -/
def committing : Pc ρ → Bool
| .waitGroup _ => true
| .waitGroupAcquire _ => true
| .groupCommit => true
| .groupSignal => true
| .waitUndyCreated => true
| .killUndy => true
| .waitUndyConceded => true
| .succFini => true
| _ => false

/-
  `BOP_abort_spec`: MAIN shrinks the group to itself and
  goes on, a speculative task shrinks it to its
  predecessors and leaves.
-/
def abortSpec
    (k psize : Nat)
    (pc : Pc ρ) :
    Option (Move ρ) :=
  if k = 0 then
    if 1 < psize then goTo (.setSize 1 pc) else goTo pc
  else
    some (.setSize k .abortSignal, .quiet, [.aborted k])

/- A step of task `k` that is not a signal handler. -/
def taskStep
    (cfg : Group ρ)
    (k psize : Nat)
    (pc : Pc ρ) :
    Act → Option (Move ρ)
| .go => taskGo cfg k psize pc
| .work => if userCode k pc then goTo pc else none
| .fail =>
    match pc with
    | .checking =>
        some (.checked false, .quiet, [.checkEnded k false])
    | _ => none
| .abort =>
    if mayAbort k pc then abortSpec k psize pc else none
| .abortNext =>
    if userCode k pc then goTo (.setSize (k + 1) pc)
    else none
| .die => if alive pc then goTo (.exited .died) else none
| .usr1 => none
| .usr2 => none

------------------------------------------------------------
-- The State of a Group
------------------------------------------------------------

/- What the processes of a group share. -/
structure State (ρ : Type) where
  partialSize : Nat
  held : Lock → Bool
  pc : Nat → Pc ρ
  undy : UndyPc
  undyPprCount : Nat
  usr1 : Proc → Bool
  usr2 : Proc → Bool
  log : List (Event ρ)

/- The understudy can still receive signals. -/
def undyAlive : UndyPc → Bool
| .unborn => false
| .seq => false
| .conceded => false
| .died => false
| _ => true

/- The process can still receive signals. -/
def State.alive (s : State ρ) : Proc → Bool
| .task k => Cbop.alive (s.pc k)
| .undy => undyAlive s.undy

/- `kill(0, SIGUSR1)`. -/
def State.killAll1 (s : State ρ) : State ρ :=
  { s with usr1 := fun p => s.usr1 p || s.alive p }

/- `kill(0, SIGUSR2)`. -/
def State.killAll2 (s : State ρ) : State ρ :=
  { s with usr2 := fun p => s.usr2 p || s.alive p }

/- Task `k` moves to another point. -/
def State.setPc
    (s : State ρ)
    (k : Nat)
    (pc : Pc ρ) :
    State ρ :=
  { s with pc := Function.update s.pc k pc }

def State.setHeld
    (s : State ρ)
    (lock : Lock)
    (value : Bool) :
    State ρ :=
  { s with held := Function.update s.held lock value }

/-
  The effect of a step of task `k`. An acquire waits until
  the lock is free; a release frees it whoever holds it.
-/
def State.apply
    (s : State ρ)
    (k : Nat) :
    Effect → Option (State ρ)
| .quiet => some s
| .acquire lock =>
    if s.held lock then none else some (s.setHeld lock true)
| .release lock => some (s.setHeld lock false)
| .writeSize p => some { s with partialSize := p }
| .fork => some (s.setPc (k + 1) .gap)
| .spawnUndy => some { s with undy := .created }
| .killUndy => some s.killAll1

/- After `ppr_sync_data_reset`, with MAIN alone. -/
def State.init (cfg : Group ρ) : State ρ where
  partialSize := cfg.size
  held := fun lock => lock ≠ .sync
  pc := fun k => if k = 0 then .gap else .unborn
  undy := .unborn
  undyPprCount := 0
  usr1 := fun _ => false
  usr2 := fun _ => false
  log := []

------------------------------------------------------------
-- Signals and the Understudy
------------------------------------------------------------

/-
  `SigUsr1` in MAIN or a speculative task: the last task of
  the group ignores it.
-/
def State.taskUsr1
    (s : State ρ)
    (k : Nat) :
    State ρ :=
  let s := { s with
    usr1 := Function.update s.usr1 (.task k) false }
  if k = s.partialSize - 1 then s
  else s.setPc k (.exited .usr1)

/- `SigUsr2` in MAIN or a speculative task. -/
def State.taskUsr2
    (s : State ρ)
    (k : Nat) :
    State ρ :=
  let s := { s with
    usr2 := Function.update s.usr2 (.task k) false }
  s.setPc k (.exited (.usr2 (committing (s.pc k))))

/- `SigUsr1` in the understudy: it concedes and leaves. -/
def State.undyUsr1 (s : State ρ) : State ρ :=
  let s := { s with
    usr1 := Function.update s.usr1 .undy false }
  { s.setHeld .undyConceded false with undy := .conceded }

/- `SigUsr2` in the understudy changes nothing. -/
def State.undyUsr2 (s : State ρ) : State ρ :=
  { s with usr2 := Function.update s.usr2 .undy false }

/-
  The next step of the understudy. One step of `running` is
  one call of `post_ppr_undy`, up to the finish line.
-/
def undyGo
    (cfg : Group ρ)
    (s : State ρ) :
    Option (State ρ) :=
  match s.undy with
  | .created =>
      some { s.setHeld .undyCreated false with
        undy := .running }
  | .running =>
      let count := s.undyPprCount + 1
      let s := { s with undyPprCount := count }
      if count < s.partialSize - 1 then some s
      else some { s with undy := .killSpecs }
  | .killSpecs => some { s.killAll2 with undy := .killMain }
  | .killMain =>
      -- the leader of the process group gets SIGUSR1 too
      let reached := cfg.mainLeads && s.alive (.task 0)
      some { s with
        usr1 := Function.update s.usr1 (.task 0)
          (s.usr1 (.task 0) || reached)
        undy := .succFini }
  | .succFini => some { s with undy := .setSeq }
  | .setSeq =>
      some { s with
        undy := .seq
        log := s.log ++ [.becameSeq .undy] }
  | _ => none

------------------------------------------------------------
-- The Protocol
------------------------------------------------------------

/- A step of MAIN or a speculative task. -/
def stepTask
    (cfg : Group ρ)
    (s : State ρ)
    (k : Nat) :
    Act → Option (State ρ)
| .usr1 =>
    if s.usr1 (.task k) && alive (s.pc k) then
      some (s.taskUsr1 k)
    else none
| .usr2 =>
    if s.usr2 (.task k) && alive (s.pc k) then
      some (s.taskUsr2 k)
    else none
| act => do
    let (pc, effect, events) ←
      taskStep cfg k s.partialSize (s.pc k) act
    let s' ← s.apply k effect
    some { s'.setPc k pc with log := s.log ++ events }

/- A step of the understudy. -/
def stepUndy
    (cfg : Group ρ)
    (s : State ρ) :
    Act → Option (State ρ)
| .go => undyGo cfg s
| .usr1 =>
    if s.usr1 .undy && undyAlive s.undy then
      some s.undyUsr1
    else none
| .usr2 =>
    if s.usr2 .undy && undyAlive s.undy then
      some s.undyUsr2
    else none
| .die =>
    if undyAlive s.undy then some { s with undy := .died }
    else none
| _ => none

/- A step of a process of the group. -/
def step
    (cfg : Group ρ)
    (s : State ρ) :
    Proc × Act → Option (State ρ)
| (.task k, act) => stepTask cfg s k act
| (.undy, act) => stepUndy cfg s act

/- The protocol of one group as a machine. -/
def protocol (cfg : Group ρ) : Machine (State ρ) (Proc × Act) where
  start := State.init cfg
  step := step cfg

end Cbop
