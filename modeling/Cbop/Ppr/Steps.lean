import Cbop.Ppr.Protocol

/-
  What one step of the protocol can do.

  A step is a move of a task, a signal handler of a task, or
  a step of the understudy. Every invariant of the protocol
  is derived from these cases.

  Main declarations:
    * `TaskMove`, `taskMove_of_taskStep`
    * `UndyMove`, `undyMove_of_stepUndy`
    * `Stepped`, `stepped_of_step`
    * `CoreStep`, `coreStep_of_step`
    * `log_of_aside`, `mem_log_of_aside`
    * `Unspawned`, `unspawned_of_reachable`
    * `PcMoved`, `pcMoved_of_move`
    * `view_ended`, `view_of_ended`
-/

namespace Cbop

variable {ρ : Type}

------------------------------------------------------------
-- Moves of a Task
------------------------------------------------------------

/-
  The moves of task `k` when it reads `psize` as the size,
  one constructor for each edge of its control flow.
-/
inductive TaskMove
    (cfg : Group ρ)
    (k psize : Nat) :
    Pc ρ → Act → Move ρ → Prop where
-- `_BOP_ppr_begin` and `_BOP_ppr_end`
| beginLast :
    psize - 1 ≤ k →
      TaskMove cfg k psize .gap .go (.region, .quiet, [])
| beginFork :
    k < psize - 1 →
      TaskMove cfg k psize .gap .go (.region, .fork, [])
| endMain :
    k = 0 →
      TaskMove cfg k psize .region .go
        (.taskCommit, .spawnUndy, [])
| endSpec :
    k ≠ 0 →
      TaskMove cfg k psize .region .go
        (.taskCommit, .quiet, [])
-- `partial_group_set_size`
| setSkip
    {p : Nat}
    {next : Pc ρ} :
    psize ≤ p →
      TaskMove cfg k psize (.setSize p next) .go
        (next, .quiet, [])
| setAtomic
    {p : Nat}
    {next : Pc ρ} :
    p < psize → cfg.atomicSet = true →
      TaskMove cfg k psize (.setSize p next) .go
        (next, .writeSize p, [])
| setTest
    {p : Nat}
    {next : Pc ρ} :
    p < psize → cfg.atomicSet = false →
      TaskMove cfg k psize (.setSize p next) .go
        (.setAcquire p next, .quiet, [])
| setAcquire
    {p : Nat}
    {next : Pc ρ} :
    TaskMove cfg k psize (.setAcquire p next) .go
      (.setWrite p next, .acquire .sync, [])
| setWrite
    {p : Nat}
    {next : Pc ρ} :
    TaskMove cfg k psize (.setWrite p next) .go
      (.setRelease next, .writeSize p, [])
| setRelease
    {next : Pc ρ} :
    TaskMove cfg k psize (.setRelease next) .go
      (next, .release .sync, [])
| abortSignal :
    TaskMove cfg k psize .abortSignal .go
      (.exited .clean, .release (.dataCommitted k),
        [.signalled k])
-- `ppr_task_commit`
| outsideMain :
    psize ≤ k → k = 0 →
      TaskMove cfg k psize .taskCommit .go
        (.exited .clean, .quiet, [])
| outside :
    psize ≤ k → k ≠ 0 →
      TaskMove cfg k psize .taskCommit .go
        (.setSize k .abortSignal, .quiet, [.aborted k])
| insideMain :
    k < psize → k = 0 →
      TaskMove cfg k psize .taskCommit .go
        (.checkStart, .quiet, [])
| inside :
    k < psize → k ≠ 0 →
      TaskMove cfg k psize .taskCommit .go
        (.waitPrior, .quiet, [])
| waitPrior :
    TaskMove cfg k psize .waitPrior .go
      (.checkStart, .acquire (.specChecked (k - 1)), [])
| checkStart :
    TaskMove cfg k psize .checkStart .go
      (.checking, .quiet, [.checkStarted k])
| checking :
    TaskMove cfg k psize .checking .go
      (.inserting (cfg.writes k), .quiet, [])
| insert
    {range : ρ}
    {rest : List ρ} :
    TaskMove cfg k psize (.inserting (range :: rest)) .go
      (.inserting rest, .quiet, [.inserted k range])
| inserted :
    TaskMove cfg k psize (.inserting []) .go
      (.checked true, .quiet, [.checkEnded k true])
| passed :
    TaskMove cfg k psize (.checked true) .go
      (.commitTest, .release (.specChecked k), [])
| failedMain :
    k = 0 →
      TaskMove cfg k psize (.checked false) .go
        (.exited .assertion, .quiet, [])
| failed :
    k ≠ 0 →
      TaskMove cfg k psize (.checked false) .go
        (.setSize k .abortSignal,
          .release (.specChecked k), [.aborted k])
| notLast :
    k < psize - 1 →
      TaskMove cfg k psize .commitTest .go
        (.dataCommit, .quiet, [])
| maybeLast :
    psize - 1 ≤ k →
      TaskMove cfg k psize .commitTest .go
        (.lastTest, .quiet, [])
| dataCommit :
    TaskMove cfg k psize .dataCommit .go
      (.signalCommit, .quiet, [.dataCommitted k])
| signalCommit :
    TaskMove cfg k psize .signalCommit .go
      (.waitNext, .release (.dataCommitted k),
        [.signalled k])
| waitNext :
    TaskMove cfg k psize .waitNext .go
      (.waitNextRelease,
        .acquire (.dataCommitted (k + 1)), [])
| waitNextRelease :
    TaskMove cfg k psize .waitNextRelease .go
      (.lastTest, .release (.dataCommitted (k + 1)), [])
| last :
    k = psize - 1 → k ≠ 0 →
      TaskMove cfg k psize .lastTest .go
        (.waitGroup 0, .quiet, [])
| notCommitting :
    ¬(k = psize - 1 ∧ k ≠ 0) →
      TaskMove cfg k psize .lastTest .go
        (.exited .clean, .quiet, [])
-- `_task_group_commit`
| waitMore
    {i : Nat} :
    i < psize - 1 →
      TaskMove cfg k psize (.waitGroup i) .go
        (.waitGroupAcquire i, .quiet, [])
| waitOver
    {i : Nat} :
    psize - 1 ≤ i →
      TaskMove cfg k psize (.waitGroup i) .go
        (.groupCommit, .quiet, [])
| waitGroupAcquire
    {i : Nat} :
    TaskMove cfg k psize (.waitGroupAcquire i) .go
      (.waitGroup (i + 1), .acquire (.dataCommitted i), [])
| groupCommit :
    TaskMove cfg k psize .groupCommit .go
      (.groupSignal, .quiet, [.groupCommitted k])
| groupSignal :
    TaskMove cfg k psize .groupSignal .go
      (.waitUndyCreated, .release (.dataCommitted k),
        [.signalled k])
| waitUndyCreated :
    TaskMove cfg k psize .waitUndyCreated .go
      (.killUndy, .acquire .undyCreated, [])
| killUndy :
    TaskMove cfg k psize .killUndy .go
      (.waitUndyConceded, .killUndy, [])
| waitUndyConceded :
    TaskMove cfg k psize .waitUndyConceded .go
      (.succFini, .acquire .undyConceded, [])
| succFini :
    TaskMove cfg k psize .succFini .go
      (.seq, .quiet, [.becameSeq (.task k)])
-- what can happen to a task where it stands
| work
    {pc : Pc ρ} :
    userCode k pc = true →
      TaskMove cfg k psize pc .work (pc, .quiet, [])
| fail :
    TaskMove cfg k psize .checking .fail
      (.checked false, .quiet, [.checkEnded k false])
| mainAbort
    {pc : Pc ρ} :
    mayAbort k pc = true → k = 0 → 1 < psize →
      TaskMove cfg k psize pc .abort
        (.setSize 1 pc, .quiet, [])
| mainAlone
    {pc : Pc ρ} :
    mayAbort k pc = true → k = 0 → psize ≤ 1 →
      TaskMove cfg k psize pc .abort (pc, .quiet, [])
| specAbort
    {pc : Pc ρ} :
    mayAbort k pc = true → k ≠ 0 →
      TaskMove cfg k psize pc .abort
        (.setSize k .abortSignal, .quiet, [.aborted k])
| abortNext
    {pc : Pc ρ} :
    userCode k pc = true →
      TaskMove cfg k psize pc .abortNext
        (.setSize (k + 1) pc, .quiet, [])
| die
    {pc : Pc ρ} :
    alive pc = true →
      TaskMove cfg k psize pc .die
        (.exited .died, .quiet, [])

theorem taskMove_of_taskGo
    {cfg : Group ρ}
    {k psize : Nat}
    {pc : Pc ρ}
    {move : Move ρ}
    (h : taskGo cfg k psize pc = some move) :
    TaskMove cfg k psize pc .go move := by
  unfold taskGo goTo at h
  split at h
  all_goals
    repeat' split at h
  all_goals
    simp only [reduceCtorEq, Option.some.injEq] at h
  all_goals
    subst h
  all_goals
    constructor <;> first | assumption | omega | simp_all

theorem taskMove_of_taskStep
    {cfg : Group ρ}
    {k psize : Nat}
    {pc : Pc ρ}
    {act : Act}
    {move : Move ρ}
    (h : taskStep cfg k psize pc act = some move) :
    TaskMove cfg k psize pc act move := by
  cases act with
  | go => exact taskMove_of_taskGo h
  | work =>
      simp only [taskStep, goTo, Option.ite_none_right_eq_some,
        Option.some.injEq] at h
      rcases h with ⟨hUser, rfl⟩
      exact .work hUser
  | fail =>
      cases pc <;> simp only [taskStep, reduceCtorEq,
        Option.some.injEq] at h
      subst h
      exact .fail
  | abort =>
      simp only [taskStep,
        Option.ite_none_right_eq_some] at h
      rcases h with ⟨hMay, h⟩
      unfold abortSpec at h
      by_cases hMain : k = 0
      · by_cases hSize : 1 < psize
        · simp only [hMain, hSize, if_true, goTo,
            Option.some.injEq] at h
          subst h
          exact .mainAbort hMay hMain hSize
        · simp only [hMain, hSize, if_true, if_false, goTo,
            Option.some.injEq] at h
          subst h
          exact .mainAlone hMay hMain (by omega)
      · simp only [hMain, if_false, Option.some.injEq] at h
        subst h
        exact .specAbort hMay hMain
  | abortNext =>
      simp only [taskStep, goTo, Option.ite_none_right_eq_some,
        Option.some.injEq] at h
      rcases h with ⟨hUser, rfl⟩
      exact .abortNext hUser
  | usr1 => simp [taskStep] at h
  | usr2 => simp [taskStep] at h
  | die =>
      simp only [taskStep, goTo, Option.ite_none_right_eq_some,
        Option.some.injEq] at h
      rcases h with ⟨hAlive, rfl⟩
      exact .die hAlive

/- A task that does not exist does not move. -/
theorem TaskMove.ne_unborn
    {cfg : Group ρ}
    {k psize : Nat}
    {pc : Pc ρ}
    {act : Act}
    {move : Move ρ}
    (h : TaskMove cfg k psize pc act move) :
    pc ≠ .unborn := by
  intro hEq
  subst hEq
  cases h <;> simp_all [userCode, mayAbort, alive]

/- A task that is sequential does not move. -/
theorem TaskMove.ne_seq
    {cfg : Group ρ}
    {k psize : Nat}
    {pc : Pc ρ}
    {act : Act}
    {move : Move ρ}
    (h : TaskMove cfg k psize pc act move) :
    pc ≠ .seq := by
  intro hEq
  subst hEq
  cases h <;> simp_all [userCode, mayAbort, alive]

/- MAIN forks the understudy at the end of its region. -/
theorem TaskMove.spawns_iff
    {cfg : Group ρ}
    {k psize : Nat}
    {pc : Pc ρ}
    {act : Act}
    {move : Move ρ}
    (h : TaskMove cfg k psize pc act move) :
    move.2.1 = .spawnUndy ↔
      k = 0 ∧ act = .go ∧ pc = .region := by
  cases h <;> simp_all

/- A task becomes sequential with its last step. -/
theorem TaskMove.becameSeq_iff
    {cfg : Group ρ}
    {k psize : Nat}
    {p : Proc}
    {pc : Pc ρ}
    {act : Act}
    {move : Move ρ}
    (h : TaskMove cfg k psize pc act move) :
    Event.becameSeq p ∈ move.2.2 ↔
      p = .task k ∧ act = .go ∧ pc = .succFini := by
  cases h <;> simp

------------------------------------------------------------
-- Steps of the Understudy
------------------------------------------------------------

/- A lock the understudy releases. -/
def Lock.ofUndy : Lock → Bool
| .undyCreated => true
| .undyConceded => true
| _ => false

/- The steps of the understudy, one for each edge. -/
inductive UndyMove
    (cfg : Group ρ)
    (s : State ρ) :
    Act → State ρ → Prop where
| created :
    s.undy = .created →
      UndyMove cfg s .go
        { s.setHeld .undyCreated false with
          undy := .running }
| goOn :
    s.undy = .running →
    s.undyPprCount + 1 < s.partialSize - 1 →
      UndyMove cfg s .go
        { s with undyPprCount := s.undyPprCount + 1 }
| finishLine :
    s.undy = .running →
    s.partialSize - 1 ≤ s.undyPprCount + 1 →
      UndyMove cfg s .go
        { s with
          undyPprCount := s.undyPprCount + 1
          undy := .killSpecs }
| killSpecs :
    s.undy = .killSpecs →
      UndyMove cfg s .go
        { s.killAll2 with undy := .killMain }
| killMain
    {usr1 : Proc → Bool} :
    s.undy = .killMain →
    (∀ p, p ≠ .task 0 → usr1 p = s.usr1 p) →
      UndyMove cfg s .go
        { s with usr1 := usr1, undy := .succFini }
| succFini :
    s.undy = .succFini →
      UndyMove cfg s .go { s with undy := .setSeq }
| setSeq :
    s.undy = .setSeq →
      UndyMove cfg s .go
        { s with
          undy := .seq
          log := s.log ++ [.becameSeq .undy] }
| usr1 :
    s.usr1 .undy = true → undyAlive s.undy = true →
      UndyMove cfg s .usr1 s.undyUsr1
| usr2 :
    undyAlive s.undy = true →
      UndyMove cfg s .usr2 s.undyUsr2
| die :
    undyAlive s.undy = true →
      UndyMove cfg s .die { s with undy := .died }

theorem undyMove_of_undyGo
    {cfg : Group ρ}
    {s s' : State ρ}
    (h : undyGo cfg s = some s') :
    UndyMove cfg s .go s' := by
  unfold undyGo at h
  split at h
  case h_1 hUndy =>
    simp only [Option.some.injEq] at h
    subst h
    exact .created hUndy
  case h_2 hUndy =>
    dsimp only at h
    split at h
    · rename_i hCount
      simp only [Option.some.injEq] at h
      subst h
      exact .goOn hUndy hCount
    · rename_i hCount
      simp only [Option.some.injEq] at h
      subst h
      exact .finishLine hUndy (by omega)
  case h_3 hUndy =>
    simp only [Option.some.injEq] at h
    subst h
    exact .killSpecs hUndy
  case h_4 hUndy =>
    simp only [Option.some.injEq] at h
    subst h
    refine .killMain hUndy ?_
    intro p hp
    exact Function.update_of_ne hp _ _
  case h_5 hUndy =>
    simp only [Option.some.injEq] at h
    subst h
    exact .succFini hUndy
  case h_6 hUndy =>
    simp only [Option.some.injEq] at h
    subst h
    exact .setSeq hUndy
  case h_7 => cases h

theorem undyMove_of_stepUndy
    {cfg : Group ρ}
    {s s' : State ρ}
    {act : Act}
    (h : stepUndy cfg s act = some s') :
    UndyMove cfg s act s' := by
  cases act with
  | go => exact undyMove_of_undyGo h
  | usr1 =>
      simp only [stepUndy, Option.ite_none_right_eq_some,
        Bool.and_eq_true, Option.some.injEq] at h
      rcases h with ⟨⟨hUsr, hAlive⟩, rfl⟩
      exact .usr1 hUsr hAlive
  | usr2 =>
      simp only [stepUndy, Option.ite_none_right_eq_some,
        Bool.and_eq_true, Option.some.injEq] at h
      rcases h with ⟨⟨hUsr, hAlive⟩, rfl⟩
      exact .usr2 hAlive
  | die =>
      simp only [stepUndy, Option.ite_none_right_eq_some,
        Option.some.injEq] at h
      rcases h with ⟨hAlive, rfl⟩
      exact .die hAlive
  | work => simp [stepUndy] at h
  | fail => simp [stepUndy] at h
  | abort => simp [stepUndy] at h
  | abortNext => simp [stepUndy] at h

/- A step of the understudy leaves the tasks alone. -/
theorem UndyMove.frame
    {cfg : Group ρ}
    {s s' : State ρ}
    {act : Act}
    (h : UndyMove cfg s act s') :
    s'.pc = s.pc ∧ s'.partialSize = s.partialSize ∧
      (∀ lock, lock.ofUndy = false →
        s'.held lock = s.held lock) ∧
      (s'.log = s.log ∨
        s'.log = s.log ++ [.becameSeq .undy]) := by
  have hHeld :
      ∀ lock, Lock.ofUndy lock = true →
        ∀ other, Lock.ofUndy other = false →
          (s.setHeld lock false).held other =
            s.held other := by
    intro lock hLock other hOther
    have hNe : other ≠ lock := by
      intro hEq
      subst hEq
      simp [hLock] at hOther
    exact Function.update_of_ne hNe _ _
  cases h with
  | created =>
      exact ⟨rfl, rfl, hHeld .undyCreated rfl, .inl rfl⟩
  | usr1 =>
      exact ⟨rfl, rfl, hHeld .undyConceded rfl, .inl rfl⟩
  | setSeq =>
      exact ⟨rfl, rfl, fun _ _ => rfl, .inr rfl⟩
  | _ => exact ⟨rfl, rfl, fun _ _ => rfl, .inl rfl⟩

------------------------------------------------------------
-- Steps of the Group
------------------------------------------------------------

/- The state after a task's move and its effect. -/
def State.moved
    (s s₁ : State ρ)
    (k : Nat)
    (move : Move ρ) :
    State ρ :=
  { s₁.setPc k move.1 with log := s.log ++ move.2.2 }

/- The steps of the protocol, by who takes them. -/
inductive Stepped
    (cfg : Group ρ)
    (s : State ρ) :
    Proc × Act → State ρ → Prop where
| move
    {k : Nat}
    {act : Act}
    {move : Move ρ}
    {s₁ : State ρ} :
    TaskMove cfg k s.partialSize (s.pc k) act move →
    s.apply k move.2.1 = some s₁ →
      Stepped cfg s (.task k, act) (s.moved s₁ k move)
| usr1
    {k : Nat} :
    s.usr1 (.task k) = true → alive (s.pc k) = true →
      Stepped cfg s (.task k, .usr1) (s.taskUsr1 k)
| usr2
    {k : Nat} :
    s.usr2 (.task k) = true → alive (s.pc k) = true →
      Stepped cfg s (.task k, .usr2) (s.taskUsr2 k)
| undy
    {act : Act}
    {s' : State ρ} :
    UndyMove cfg s act s' →
      Stepped cfg s (.undy, act) s'

theorem stepped_of_step
    {cfg : Group ρ}
    {s s' : State ρ}
    {label : Proc × Act}
    (h : step cfg s label = some s') :
    Stepped cfg s label s' := by
  rcases label with ⟨proc, act⟩
  cases proc with
  | undy => exact .undy (undyMove_of_stepUndy h)
  | task k =>
      change stepTask cfg s k act = some s' at h
      unfold stepTask at h
      split at h
      · simp only [Option.ite_none_right_eq_some,
          Bool.and_eq_true, Option.some.injEq] at h
        rcases h with ⟨⟨hUsr, hAlive⟩, rfl⟩
        exact .usr1 hUsr hAlive
      · simp only [Option.ite_none_right_eq_some,
          Bool.and_eq_true, Option.some.injEq] at h
        rcases h with ⟨⟨hUsr, hAlive⟩, rfl⟩
        exact .usr2 hUsr hAlive
      · simp only [Option.bind_eq_bind,
          Option.bind_eq_some_iff, Option.some.injEq] at h
        rcases h with ⟨move, hMove, s₁, hApply, rfl⟩
        exact .move (taskMove_of_taskStep hMove) hApply

------------------------------------------------------------
-- Effects
------------------------------------------------------------

/- The control points after an effect. -/
theorem apply_pc
    {s s₁ : State ρ}
    {k : Nat}
    {effect : Effect}
    (h : s.apply k effect = some s₁) :
    s₁.pc =
      if effect = .fork then
        Function.update s.pc (k + 1) .gap
      else s.pc := by
  cases effect <;>
    simp only [State.apply, Option.some.injEq,
      Option.ite_none_left_eq_some] at h
  case acquire => rcases h with ⟨-, rfl⟩; rfl
  all_goals subst h; rfl

/- The locks after an effect. -/
def heldAfter
    (held : Lock → Bool) :
    Effect → Lock → Bool
| .acquire lock => Function.update held lock true
| .release lock => Function.update held lock false
| _ => held

theorem apply_held
    {s s₁ : State ρ}
    {k : Nat}
    {effect : Effect}
    (h : s.apply k effect = some s₁) :
    s₁.held = heldAfter s.held effect := by
  cases effect <;>
    simp only [State.apply, Option.some.injEq,
      Option.ite_none_left_eq_some] at h
  case acquire => rcases h with ⟨-, rfl⟩; rfl
  all_goals subst h; rfl

/- A lock that is acquired was free. -/
theorem free_of_acquire
    {s s₁ : State ρ}
    {k : Nat}
    {lock : Lock}
    (h : s.apply k (.acquire lock) = some s₁) :
    s.held lock = false := by
  simp only [State.apply, Option.ite_none_left_eq_some] at h
  exact Bool.eq_false_iff.mpr h.1

/- An effect on the understudy. -/
theorem apply_undy
    {s s₁ : State ρ}
    {k : Nat}
    {effect : Effect}
    (h : s.apply k effect = some s₁) :
    s₁.undy =
      if effect = .spawnUndy then .created else s.undy := by
  cases effect <;>
    simp only [State.apply, Option.some.injEq,
      Option.ite_none_left_eq_some] at h
  case acquire => rcases h with ⟨-, rfl⟩; rfl
  all_goals subst h; rfl

theorem apply_usr2
    {s s₁ : State ρ}
    {k : Nat}
    {effect : Effect}
    (h : s.apply k effect = some s₁) :
    s₁.usr2 = s.usr2 := by
  cases effect <;>
    simp only [State.apply, Option.some.injEq,
      Option.ite_none_left_eq_some] at h
  case acquire => rcases h with ⟨-, rfl⟩; rfl
  all_goals subst h; rfl

/- SIGUSR1 at a task leaves the understudy and the log alone. -/
theorem taskUsr1_undy
    {ρ : Type}
    (s : State ρ)
    (k : Nat) :
    (s.taskUsr1 k).undy = s.undy ∧
      (s.taskUsr1 k).undyPprCount = s.undyPprCount ∧
      (s.taskUsr1 k).log = s.log := by
  by_cases hLast : k = s.partialSize - 1
  · simp [State.taskUsr1, ← hLast]
  · simp [State.taskUsr1, hLast, State.setPc]

theorem apply_usr1
    {s s₁ : State ρ}
    {k : Nat}
    {effect : Effect}
    (h : s.apply k effect = some s₁)
    (hKill : effect ≠ .killUndy) :
    s₁.usr1 = s.usr1 := by
  cases effect <;>
    simp only [State.apply, Option.some.injEq,
      Option.ite_none_left_eq_some] at h
  case acquire => rcases h with ⟨-, rfl⟩; rfl
  case killUndy => contradiction
  all_goals subst h; rfl

theorem apply_undyPprCount
    {s s₁ : State ρ}
    {k : Nat}
    {effect : Effect}
    (h : s.apply k effect = some s₁) :
    s₁.undyPprCount = s.undyPprCount := by
  cases effect <;>
    simp only [State.apply, Option.some.injEq,
      Option.ite_none_left_eq_some] at h
  case acquire => rcases h with ⟨-, rfl⟩; rfl
  all_goals subst h; rfl

/- The size after an effect. -/
def sizeAfter (psize : Nat) : Effect → Nat
| .writeSize p => p
| _ => psize

theorem apply_partialSize
    {s s₁ : State ρ}
    {k : Nat}
    {effect : Effect}
    (h : s.apply k effect = some s₁) :
    s₁.partialSize = sizeAfter s.partialSize effect := by
  cases effect <;>
    simp only [State.apply, Option.some.injEq,
      Option.ite_none_left_eq_some] at h
  case acquire => rcases h with ⟨-, rfl⟩; rfl
  all_goals subst h; rfl

------------------------------------------------------------
-- The Tasks' Part of a Step
------------------------------------------------------------

/- The control points after an effect of task `k`. -/
def pcAfter
    (pc : Nat → Pc ρ)
    (k : Nat)
    (effect : Effect) :
    Nat → Pc ρ :=
  if effect = .fork then Function.update pc (k + 1) .gap
  else pc

theorem pcAfter_of_quiet
    (pc : Nat → Pc ρ)
    (k : Nat)
    {effect : Effect}
    (h : effect ≠ .fork) :
    pcAfter pc k effect = pc := by
  simp [pcAfter, h]

theorem pcAfter_of_ne
    (pc : Nat → Pc ρ)
    {k j : Nat}
    (effect : Effect)
    (h : j ≠ k + 1) :
    pcAfter pc k effect j = pc j := by
  unfold pcAfter
  split
  · exact Function.update_of_ne h _ _
  · rfl

theorem moved_pc
    {s s₁ : State ρ}
    {k : Nat}
    {move : Move ρ}
    (h : s.apply k move.2.1 = some s₁) :
    (s.moved s₁ k move).pc =
      Function.update (pcAfter s.pc k move.2.1) k
        move.1 := by
  change Function.update s₁.pc k move.1 = _
  rw [apply_pc h]
  rfl

/- The step is none of a task's own moves. -/
def IsSignal (label : Proc × Act) : Prop :=
  ∀ k act, label = (.task k, act) →
    act = .usr1 ∨ act = .usr2

/-
  A step as the tasks see it: one task moves, a signal ends
  one task, or nothing of theirs changes.
-/
inductive CoreStep
    (cfg : Group ρ)
    (s : State ρ)
    (label : Proc × Act)
    (s' : State ρ) : Prop where
| moved
    (k : Nat)
    (act : Act)
    (move : Move ρ)
    (hLabel : label = (.task k, act))
    (hMove : TaskMove cfg k s.partialSize (s.pc k) act move)
    (hFree : ∀ lock, move.2.1 = .acquire lock →
      s.held lock = false)
    (hPc : s'.pc =
      Function.update (pcAfter s.pc k move.2.1) k move.1)
    (hHeld : s'.held = heldAfter s.held move.2.1)
    (hSize : s'.partialSize =
      sizeAfter s.partialSize move.2.1)
    (hLog : s'.log = s.log ++ move.2.2)
| ended
    (k : Nat)
    (why : Why)
    (hLabel : IsSignal label)
    (hAlive : alive (s.pc k) = true)
    (hPc : s'.pc = Function.update s.pc k (.exited why))
    (hHeld : s'.held = s.held)
    (hSize : s'.partialSize = s.partialSize)
    (hLog : s'.log = s.log)
| aside
    (hLabel : IsSignal label)
    (hPc : s'.pc = s.pc)
    (hHeld : ∀ lock, lock.ofUndy = false →
      s'.held lock = s.held lock)
    (hSize : s'.partialSize = s.partialSize)
    (hLog : s'.log = s.log ∨
      s'.log = s.log ++ [.becameSeq .undy])

theorem coreStep_of_step
    {cfg : Group ρ}
    {s s' : State ρ}
    {label : Proc × Act}
    (h : step cfg s label = some s') :
    CoreStep cfg s label s' := by
  cases stepped_of_step h with
  | @move k act move s₁ hMove hApply =>
      refine .moved k act move rfl hMove ?_ ?_ ?_ ?_ rfl
      · intro lock hEffect
        rw [hEffect] at hApply
        exact free_of_acquire hApply
      · exact moved_pc hApply
      · change s₁.held = _
        exact apply_held hApply
      · change s₁.partialSize = _
        exact apply_partialSize hApply
  | @usr1 k hUsr hAlive =>
      have hSignal : IsSignal (.task k, .usr1) := by
        intro j act hEq
        simp only [Prod.mk.injEq] at hEq
        exact .inl hEq.2.symm
      by_cases hLast : k = s.partialSize - 1
      · simp only [State.taskUsr1, if_pos hLast]
        exact .aside hSignal rfl (fun _ _ => rfl) rfl
          (.inl rfl)
      · simp only [State.taskUsr1, hLast, if_false]
        exact .ended k .usr1 hSignal hAlive rfl rfl rfl rfl
  | @usr2 k hUsr hAlive =>
      refine .ended k _ ?_ hAlive rfl rfl rfl rfl
      intro j act hEq
      simp only [Prod.mk.injEq] at hEq
      exact .inr hEq.2.symm
  | undy hUndy =>
      rcases hUndy.frame with
        ⟨hPc, hSize, hHeld, hLog⟩
      refine .aside ?_ hPc hHeld hSize hLog
      intro j act hEq
      simp at hEq

------------------------------------------------------------
-- Births
------------------------------------------------------------

/- The task has not started the next one. -/
def unspawned : Pc ρ → Bool
| .unborn => true
| .gap => true
| .setSize _ next => unspawned next
| .setAcquire _ next => unspawned next
| .setWrite _ next => unspawned next
| .setRelease next => unspawned next
| _ => false

/- A task that did not fork has no successor. -/
def Unspawned (s : State ρ) : Prop :=
  ∀ k, unspawned (s.pc k) = true → s.pc (k + 1) = .unborn

/-
  What a step that is none of a task's moves leaves in the
  log: the understudy may have become sequential.
-/
theorem log_of_aside
    {log log' : List (Event ρ)}
    (h : log' = log ∨ log' = log ++ [.becameSeq .undy]) :
    ∃ events, log' = log ++ events ∧
      ∀ e ∈ events, e = .becameSeq .undy := by
  rcases h with h | h
  · exact ⟨[], by rw [h, List.append_nil], by simp⟩
  · exact ⟨_, h, by simp⟩

theorem mem_log_of_aside
    {log log' : List (Event ρ)}
    (h : log' = log ∨ log' = log ++ [.becameSeq .undy])
    {e : Event ρ}
    (hTask : e ≠ .becameSeq .undy) :
    e ∈ log' ↔ e ∈ log := by
  rcases h with h | h
  · rw [h]
  · rw [h, List.mem_append, List.mem_singleton]
    exact or_iff_left hTask

/- A task forks once, on leaving its gap. -/
theorem TaskMove.unspawned
    {cfg : Group ρ}
    {k psize : Nat}
    {pc : Pc ρ}
    {act : Act}
    {move : Move ρ}
    (h : TaskMove cfg k psize pc act move) :
    (Cbop.unspawned move.1 = true →
      Cbop.unspawned pc = true) ∧
      (move.2.1 = .fork →
        Cbop.unspawned pc = true ∧
          Cbop.unspawned move.1 = false) := by
  cases h <;>
    simp_all [Cbop.unspawned, userCode, mayAbort, alive]

theorem unspawned_step
    {cfg : Group ρ}
    {s s' : State ρ}
    {label : Proc × Act}
    (hInv : Unspawned s)
    (h : step cfg s label = some s') :
    Unspawned s' := by
  intro j hJ
  cases coreStep_of_step h with
  | moved k act move hLabel hMove hFree hPc hHeld hSize
      hLog =>
      have hBorn : s.pc k ≠ .unborn := hMove.ne_unborn
      rcases hMove.unspawned with ⟨hKeep, hFork⟩
      rw [hPc] at hJ ⊢
      by_cases hPrev : j + 1 = k
      · have hOld : pcAfter s.pc k move.2.1 j = s.pc j :=
          pcAfter_of_ne _ _ (by omega)
        rw [Function.update_of_ne (by omega), hOld] at hJ
        exact absurd (hPrev ▸ hInv j hJ) hBorn
      · rw [Function.update_of_ne hPrev]
        by_cases hSelf : j = k
        · subst hSelf
          rw [Function.update_self] at hJ
          have hQuiet : move.2.1 ≠ .fork := by
            intro hEq
            simp [(hFork hEq).2] at hJ
          rw [pcAfter_of_quiet _ _ hQuiet]
          exact hInv j (hKeep hJ)
        · rw [Function.update_of_ne hSelf] at hJ
          rw [pcAfter_of_ne _ _ (by omega)]
          by_cases hChild : j = k + 1 ∧ move.2.1 = .fork
          · rcases hChild with ⟨rfl, hEq⟩
            have hUnborn : s.pc (k + 1) = .unborn :=
              hInv k (hFork hEq).1
            exact hInv (k + 1) (by rw [hUnborn]; rfl)
          · have hOld : pcAfter s.pc k move.2.1 j = s.pc j := by
              by_cases hEq : move.2.1 = .fork
              · exact pcAfter_of_ne _ _
                  (fun h => hChild ⟨h, hEq⟩)
              · rw [pcAfter_of_quiet _ _ hEq]
            rw [hOld] at hJ
            exact hInv j hJ
  | ended k why hLabel hAlive hPc hHeld hSize hLog =>
      rw [hPc] at hJ ⊢
      by_cases hSelf : j = k
      · subst hSelf
        simp [unspawned] at hJ
      · rw [Function.update_of_ne hSelf] at hJ
        have hUnborn := hInv j hJ
        have hNe : j + 1 ≠ k := by
          intro hCase
          subst hCase
          simp [hUnborn, alive] at hAlive
        rw [Function.update_of_ne hNe]
        exact hUnborn
  | aside hLabel hPc hHeld hSize hLog =>
      rw [hPc] at hJ ⊢
      exact hInv j hJ

/-
  What the other tasks' points show to a view that does not
  tell a new task from one that does not exist.
-/
theorem view_other
    {α : Type}
    (view : Pc ρ → α)
    (hView : view .gap = view .unborn)
    {cfg : Group ρ}
    {s : State ρ}
    {k psize : Nat}
    {act : Act}
    {move : Move ρ}
    (hInv : Unspawned s)
    (hMove : TaskMove cfg k psize (s.pc k) act move)
    {j : Nat}
    (hj : j ≠ k) :
    view (Function.update (pcAfter s.pc k move.2.1) k
        move.1 j) =
      view (s.pc j) := by
  rw [Function.update_of_ne hj]
  by_cases hEq : move.2.1 = .fork
  · by_cases hChild : j = k + 1
    · have hUnborn := hInv k (hMove.unspawned.2 hEq).1
      simp only [pcAfter, hEq, if_true, hChild,
        Function.update_self, hUnborn, hView]
    · rw [pcAfter_of_ne _ _ hChild]
  · rw [pcAfter_of_quiet _ _ hEq]

/-
  The points after a move of task `k` to `new`, as far as
  such views tell them apart.
-/
structure PcMoved
    (pc pc' : Nat → Pc ρ)
    (k : Nat)
    (new : Pc ρ) : Prop where
  self : pc' k = new
  other : ∀ (view : Pc ρ → Bool),
    view .gap = view .unborn →
      ∀ j, j ≠ k → view (pc' j) = view (pc j)

theorem pcMoved_of_move
    {cfg : Group ρ}
    {s s' : State ρ}
    {k psize : Nat}
    {act : Act}
    {move : Move ρ}
    (hInv : Unspawned s)
    (hMove : TaskMove cfg k psize (s.pc k) act move)
    (hPc : s'.pc =
      Function.update (pcAfter s.pc k move.2.1) k move.1) :
    PcMoved s.pc s'.pc k move.1 := by
  constructor
  · rw [hPc, Function.update_self]
  · intro view hView j hj
    rw [hPc]
    exact view_other view hView hInv hMove hj

section Ended

variable {pc pc' : Nat → Pc ρ}
variable {k : Nat}
variable {why : Why}

/- A view that an ended task loses held before. -/
theorem view_of_ended
    (hPc : pc' = Function.update pc k (.exited why))
    (view : Pc ρ → Bool)
    (hView : view (.exited why) = false)
    (j : Nat)
    (hj : view (pc' j) = true) :
    view (pc j) = true := by
  rw [hPc] at hj
  by_cases hSelf : j = k
  · rw [hSelf, Function.update_self, hView] at hj
    cases hj
  · rw [Function.update_of_ne hSelf] at hj
    exact hj

/- A view that an ended task has still holds. -/
theorem view_ended
    (hPc : pc' = Function.update pc k (.exited why))
    (view : Pc ρ → Bool)
    (hView : view (.exited why) = true)
    (j : Nat)
    (hj : view (pc j) = true) :
    view (pc' j) = true := by
  rw [hPc]
  by_cases hSelf : j = k
  · rw [hSelf, Function.update_self]
    exact hView
  · rw [Function.update_of_ne hSelf]
    exact hj

end Ended

theorem unspawned_of_reachable
    {cfg : Group ρ}
    {ok : State ρ → Proc × Act → Prop}
    {s : State ρ}
    (h : (protocol cfg).Reachable ok s) :
    Unspawned s := by
  apply h.invariant Unspawned
  · intro k _
    simp [protocol, State.init]
  · intro s label s' _ hInv _ hStep
    exact unspawned_step hInv hStep

end Cbop
