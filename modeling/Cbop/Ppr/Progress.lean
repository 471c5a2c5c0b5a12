import Cbop.Ppr.Awaiting

/-
  The tasks of a group never wait for each other in vain.

  Each `spec_checked` and each `data_committed` lock that is
  taken is held for a task that goes on: the tasks before it
  have checked, and every task that stopped waiting gave its
  lock back. So the tasks of the group go on until the last
  of them has committed the group and waits for nobody but
  the understudy, also when tasks fail and the group shrinks
  meanwhile.

  Main declarations:
    * `SteadyTasks`
    * `writesOwn`, `unchecked`, `awaitsNext`, `waitedFor`
    * `ProgressInv`, `progressInv_of_reachable`
    * `tasks_never_stuck`
-/

namespace Cbop

variable {ρ : Type}

/- As `NoLosses`; and MAIN's own check finds no conflict. -/
structure SteadyTasks
    (cfg : Group ρ)
    (s : State ρ)
    (label : Proc × Act) : Prop
    extends NoLosses cfg s label where
  passes : label ≠ (.task 0, .fail)

------------------------------------------------------------
-- Points
------------------------------------------------------------

def isAbort : Pc ρ → Bool
| .abortSignal => true
| _ => false

/- Task `k` shrinks the group from here and goes on. -/
def returnsTo (k : Nat) (next : Pc ρ) : Bool :=
  if k = 0 then mayAbort k next else userCode k next

/-
  Task `k` leaves the group to those before it, or sends
  away those behind it.
-/
def writesOwn (k : Nat) : Pc ρ → Bool
| .setSize p next =>
    (p = k && isAbort next) ||
      (p = k + 1 && returnsTo k next)
| .setAcquire p next =>
    (p = k && isAbort next) ||
      (p = k + 1 && returnsTo k next)
| .setWrite p next =>
    (p = k && isAbort next) ||
      (p = k + 1 && returnsTo k next)
| .setRelease next => isAbort next || returnsTo k next
| _ => true

/- Where MAIN never stands when its check passes. -/
def offMain : Pc ρ → Bool
| .waitPrior => true
| .checked false => true
| _ => false

/- The task has not released its `spec_checked` lock. -/
def unchecked : Pc ρ → Bool
| .unborn => true
| .gap => true
| .region => true
| .taskCommit => true
| .waitPrior => true
| .checkStart => true
| .checking => true
| .inserting _ => true
| .checked _ => true
| .setSize _ next => unchecked next
| .setAcquire _ next => unchecked next
| .setWrite _ next => unchecked next
| .setRelease next => unchecked next
| _ => false

/- The task was not the last one and waits for the next. -/
def awaitsNext : Pc ρ → Bool
| .dataCommit => true
| .signalCommit => true
| .waitNext => true
| _ => false

/- The last task has waited for task `i`. -/
def waitedFor (i : Nat) : Pc ρ → Bool
| .waitGroup j => i < j
| .waitGroupAcquire j => i < j
| .groupCommit => true
| _ => false

theorem writesOwn_of_returnsTo
    {k : Nat}
    {next : Pc ρ}
    (h : returnsTo k next = true) :
    writesOwn k next = true := by
  cases next <;>
    simp_all [returnsTo, writesOwn, mayAbort, userCode]

theorem writesOwn_of_isAbort
    {k : Nat}
    {next : Pc ρ}
    (h : isAbort next = true) :
    writesOwn k next = true := by
  cases next <;> simp_all [isAbort, writesOwn]

theorem returnsTo_of_userCode
    {k : Nat}
    {next : Pc ρ}
    (h : userCode k next = true) :
    returnsTo k next = true := by
  unfold returnsTo
  split
  · cases next <;> simp_all [userCode, mayAbort]
  · exact h

/- Settled tasks are done with shrinking the group. -/
theorem off_of_settled
    {pc : Pc ρ}
    (k : Nat)
    (h : settled pc = true) :
    isAbort pc = false ∧ returnsTo k pc = false := by
  cases pc <;>
    simp_all [settled, isAbort, returnsTo, mayAbort,
      userCode]

------------------------------------------------------------
-- Moves
------------------------------------------------------------

section Moves

variable {cfg : Group ρ}
variable {k psize : Nat}
variable {pc : Pc ρ}
variable {act : Act}
variable {move : Move ρ}

theorem TaskMove.writesOwn
    (h : TaskMove cfg k psize pc act move)
    (hOwn : Cbop.writesOwn k pc = true) :
    Cbop.writesOwn k move.1 = true := by
  have hNext :
      ∀ next : Pc ρ, isAbort next || returnsTo k next →
        Cbop.writesOwn k next = true := by
    intro next hNext
    rw [Bool.or_eq_true] at hNext
    exact hNext.elim writesOwn_of_isAbort
      writesOwn_of_returnsTo
  cases h
  case setSkip =>
    apply hNext
    simp_all [Cbop.writesOwn]
    tauto
  case setAtomic =>
    apply hNext
    simp_all [Cbop.writesOwn]
    tauto
  case setRelease =>
    apply hNext
    simp_all [Cbop.writesOwn]
  case setWrite =>
    simp_all [Cbop.writesOwn]
    tauto
  case work => exact hOwn
  case mainAlone => exact hOwn
  case abortNext hUser =>
    by_cases hMain : k = 0 <;>
      simp_all [Cbop.writesOwn, returnsTo]
    cases pc <;> simp_all [userCode, mayAbort]
  all_goals simp_all [Cbop.writesOwn, isAbort, returnsTo]

/- A task writes its own index, or the one after it. -/
theorem TaskMove.writes_own
    {p : Nat}
    {log : List (Event ρ)}
    (h : TaskMove cfg k psize pc act move)
    (hOwn : Cbop.writesOwn k pc = true)
    (hPoint : PointOk log k pc)
    (hWrite : move.2.1 = .writeSize p) :
    (p = k ∧ Event.aborted k ∈ log) ∨ p = k + 1 := by
  have hAbort :
      ∀ next : Pc ρ, isAbort next = true →
        PointOk log k next → Event.aborted k ∈ log := by
    intro next hNext hPoint
    cases next <;> simp_all [isAbort, PointOk]
  cases h <;> simp_all [Cbop.writesOwn, PointOk]
  all_goals
    rcases hOwn with ⟨hEq, hNext⟩ | ⟨hEq, -⟩
    · exact .inl ⟨by omega, hAbort _ hNext hPoint⟩
    · exact .inr (by omega)

/-
  A move to a point from which nobody shrinks the group does
  not come back from shrinking it.
-/
theorem TaskMove.direct
    (h : TaskMove cfg k psize pc act move)
    (hOwn : Cbop.writesOwn k pc = true)
    (hSettled : Cbop.settled move.1 = true) :
    pc ≠ move.1 ∧ pc ≠ .setRelease move.1 ∧
      ∀ p, pc ≠ .setSize p move.1 := by
  rcases off_of_settled k hSettled with ⟨hAbort, hReturns⟩
  refine ⟨?_, ?_, ?_⟩
  · intro hEq
    cases h
    case work hUser =>
      rw [returnsTo_of_userCode hUser] at hReturns
      cases hReturns
    case mainAlone hMain _ hMay =>
      subst hMain
      have hBack : returnsTo 0 pc = true := hMay
      rw [hBack] at hReturns
      cases hReturns
    case specAbort hSpec hMay =>
      rw [hEq] at hMay
      cases hMay
    case die hAlive =>
      rw [hEq] at hAlive
      cases hAlive
    all_goals cases hEq
  · intro hEq
    simp [hEq, Cbop.writesOwn, hAbort, hReturns] at hOwn
  · intro p hEq
    simp [hEq, Cbop.writesOwn, hAbort, hReturns] at hOwn

theorem TaskMove.born
    (h : TaskMove cfg k psize pc act move)
    (hOwn : Cbop.writesOwn k pc = true) :
    move.1 ≠ .unborn := by
  cases h
  case setSkip p next hSkip =>
    cases next <;>
      simp_all [Cbop.writesOwn, isAbort, returnsTo,
        mayAbort, userCode]
  case setAtomic p next _ _ =>
    cases next <;>
      simp_all [Cbop.writesOwn, isAbort, returnsTo,
        mayAbort, userCode]
  case setRelease next =>
    cases next <;>
      simp_all [Cbop.writesOwn, isAbort, returnsTo,
        mayAbort, userCode]
  case work hUser => cases pc <;> simp_all [userCode]
  case mainAlone hMay _ _ =>
    cases pc <;> simp_all [mayAbort, userCode]
  all_goals simp_all

/- MAIN neither waits for a check nor fails its own. -/
theorem TaskMove.offMain
    (h : TaskMove cfg 0 psize pc act move)
    (hOwn : Cbop.writesOwn 0 pc = true)
    (hPasses : act ≠ .fail) :
    Cbop.offMain move.1 = false := by
  cases h
  case setSkip p next hSkip =>
    cases next <;>
      simp_all [Cbop.writesOwn, isAbort, returnsTo,
        mayAbort, userCode, Cbop.offMain]
  case setAtomic p next _ _ =>
    cases next <;>
      simp_all [Cbop.writesOwn, isAbort, returnsTo,
        mayAbort, userCode, Cbop.offMain]
  case setRelease next =>
    cases next <;>
      simp_all [Cbop.writesOwn, isAbort, returnsTo,
        mayAbort, userCode, Cbop.offMain]
  case work hUser =>
    cases pc <;> simp_all [userCode, Cbop.offMain]
  case mainAlone hMay _ _ =>
    cases pc <;> simp_all [mayAbort, userCode, Cbop.offMain]
  all_goals simp_all [Cbop.offMain]

/- A task leaves its gap with a fork, or by an abort. -/
theorem TaskMove.unspawned_keep
    (h : TaskMove cfg k psize pc act move)
    (hLives : act ≠ .die)
    (hInside : k + 1 < psize)
    (hUnspawned : Cbop.unspawned pc = true) :
    move.2.1 = .fork ∨ Cbop.unspawned move.1 = true ∨
      (k ≠ 0 ∧ Event.aborted k ∈ move.2.2) := by
  cases h
  case beginLast hLast => omega
  all_goals simp_all [Cbop.unspawned]

/-
  A task that has not released its `spec_checked` lock does
  so, aborts, or is outside of the group.
-/
theorem TaskMove.unchecked_keep
    (h : TaskMove cfg k psize pc act move)
    (hLives : act ≠ .die)
    (hMain : k = 0 → Cbop.offMain pc = false)
    (hUnchecked : Cbop.unchecked pc = true) :
    move.2.1 = .release (.specChecked k) ∨
      Cbop.unchecked move.1 = true ∨
      (k ≠ 0 ∧ Event.aborted k ∈ move.2.2) ∨
      psize ≤ k := by
  cases h <;> simp_all [Cbop.unchecked, Cbop.offMain]

/- Task `k` takes the lock of the check before its own. -/
theorem TaskMove.takes_check
    {i : Nat}
    (h : TaskMove cfg k psize pc act move)
    (hAcquire : move.2.1 = .acquire (.specChecked i)) :
    i = k - 1 ∧ pc = .waitPrior ∧ move.1 = .checkStart := by
  cases h <;> simp_all

theorem TaskMove.starts_check
    (h : TaskMove cfg k psize pc act move)
    (hLives : act ≠ .die)
    (hPc : pc = .checkStart) :
    Event.checkStarted k ∈ move.2.2 := by
  cases h <;> simp_all [userCode, mayAbort]

/- A task that is not the last one waits for the next. -/
theorem TaskMove.awaitsNext
    (h : TaskMove cfg k psize pc act move)
    (hOwn : Cbop.writesOwn k pc = true)
    (hSpec : k ≠ 0)
    (hAwaits : Cbop.awaitsNext move.1 = true) :
    (Cbop.awaitsNext pc = true ∨ k + 1 < psize) ∧
      sizeAfter psize move.2.1 = psize := by
  cases h
  case setSkip p next hSkip =>
    cases next <;>
      simp_all [Cbop.writesOwn, isAbort, returnsTo,
        userCode, Cbop.awaitsNext]
  case setAtomic p next _ _ =>
    cases next <;>
      simp_all [Cbop.writesOwn, isAbort, returnsTo,
        userCode, Cbop.awaitsNext]
  case setRelease next =>
    cases next <;>
      simp_all [Cbop.writesOwn, isAbort, returnsTo,
        userCode, Cbop.awaitsNext]
  case notLast hInside =>
    exact ⟨.inr (by omega), rfl⟩
  all_goals simp_all [Cbop.awaitsNext, sizeAfter]

/- Who takes a `data_committed` lock. -/
theorem TaskMove.takes_data
    {i : Nat}
    (h : TaskMove cfg k psize pc act move)
    (hAcquire : move.2.1 = .acquire (.dataCommitted i)) :
    (k + 1 = i ∧ move.1 = .waitNextRelease) ∨
      Cbop.waitedFor i move.1 = true := by
  cases h <;> simp_all [Cbop.waitedFor]

/- Who signals releases its lock in the same step. -/
theorem TaskMove.signals_release
    {i : Nat}
    (h : TaskMove cfg k psize pc act move)
    (hSignal : Event.signalled i ∈ move.2.2) :
    move.2.1 = .release (.dataCommitted i) := by
  cases h <;> simp_all

/- A lock of the next task is given back at once. -/
theorem TaskMove.gives_back
    (h : TaskMove cfg k psize pc act move)
    (hLives : act ≠ .die)
    (hPc : pc = .waitNextRelease) :
    move.2.1 = .release (.dataCommitted (k + 1)) := by
  cases h <;> simp_all [userCode, mayAbort]

theorem TaskMove.waitedFor_keep
    {i : Nat}
    (h : TaskMove cfg k psize pc act move)
    (hLives : act ≠ .die)
    (hWaited : Cbop.waitedFor i pc = true) :
    Cbop.waitedFor i move.1 = true ∨
      Event.groupCommitted k ∈ move.2.2 := by
  cases h
  case work hUser => exact .inl hWaited
  case mainAbort hMay _ _ =>
    cases pc <;>
      simp_all [mayAbort, userCode, Cbop.waitedFor]
  case specAbort hMay _ =>
    cases pc <;>
      simp_all [mayAbort, userCode, Cbop.waitedFor]
  case abortNext hUser =>
    cases pc <;> simp_all [userCode, Cbop.waitedFor]
  all_goals simp_all [Cbop.waitedFor] <;> omega

/- The last task waits for tasks before it only. -/
theorem TaskMove.waits_before
    {i : Nat}
    (h : TaskMove cfg k psize pc act move)
    (hOwn : Cbop.writesOwn k pc = true)
    (hWaits : move.1 = .waitGroupAcquire i) :
    pc = .waitGroup i ∧ i < psize - 1 := by
  rcases h.direct hOwn (by rw [hWaits]; rfl) with
    ⟨hMoves, hRelease, hSize⟩
  cases h <;> simp_all

/- A task waits for the next one after its own signal. -/
theorem TaskMove.waits_signalled
    (h : TaskMove cfg k psize pc act move)
    (hOwn : Cbop.writesOwn k pc = true)
    (hWaits : move.1 = .waitNext ∨
      move.1 = .waitNextRelease) :
    Event.signalled k ∈ move.2.2 ∨ pc = .waitNext := by
  have hSettled : Cbop.settled move.1 = true := by
    rcases hWaits with h | h <;> rw [h] <;> rfl
  rcases h.direct hOwn hSettled with
    ⟨hMoves, hRelease, hSize⟩
  cases h <;> simp_all

/- What precedes the second test for the last task. -/
theorem TaskMove.tests
    (h : TaskMove cfg k psize pc act move)
    (hOwn : Cbop.writesOwn k pc = true)
    (hTests : move.1 = .lastTest) :
    psize ≤ k + 1 ∨ pc = .waitNextRelease := by
  rcases h.direct hOwn (by rw [hTests]; rfl) with
    ⟨hMoves, hRelease, hSize⟩
  cases h
  case maybeLast hLast => exact .inl (by omega)
  all_goals simp_all

/- How a task leaves the group by itself. -/
theorem TaskMove.leaves
    {why : Why}
    (h : TaskMove cfg k psize pc act move)
    (hLives : act ≠ .die)
    (hMain : k = 0 → Cbop.offMain pc = false)
    (hOwn : Cbop.writesOwn k pc = true)
    (hGone : move.1 = .exited why) :
    sizeAfter psize move.2.1 = psize ∧
      (pc = .abortSignal ∨ psize ≤ k ∨
        (pc = .lastTest ∧ ¬(k = psize - 1 ∧ k ≠ 0))) := by
  rcases h.direct hOwn (by rw [hGone]; rfl) with
    ⟨hMoves, hRelease, hSize⟩
  cases h <;> simp_all [sizeAfter, Cbop.offMain]

/- A failed task signals as it leaves. -/
theorem TaskMove.leaves_failed
    {why : Why}
    (h : TaskMove cfg k psize pc act move)
    (hLives : act ≠ .die)
    (hSpec : k ≠ 0)
    (hFailing : Cbop.failing psize k pc = true)
    (hGone : move.1 = .exited why) :
    Event.signalled k ∈ move.2.2 := by
  cases h
  case setSkip p next hSkip =>
    cases next <;> simp_all [Cbop.failing]
  case setAtomic p next _ _ =>
    cases next <;> simp_all [Cbop.failing]
  case setRelease next =>
    cases next <;> simp_all [Cbop.failing]
  case work hUser => cases pc <;> simp_all [userCode]
  all_goals simp_all [Cbop.failing]

theorem TaskMove.fails_stays
    {i : Nat}
    {why : Why}
    (h : TaskMove cfg k psize pc act move)
    (hFails : Failed move.2.2 i) :
    move.1 ≠ .exited why := by
  cases h <;> simp_all [Failed]

end Moves

------------------------------------------------------------
-- The Invariant
------------------------------------------------------------

/-
  What holds of the tasks while nobody has won. A failed
  task is one that shrinks the group, or has.
-/
structure ProgressInv (s : State ρ) : Prop where
  own : ∀ k, writesOwn k (s.pc k) = true
  main : s.pc 0 ≠ .unborn ∧ offMain (s.pc 0) = false
  born : ∀ k, k + 1 < s.partialSize →
    s.pc (k + 1) = .unborn →
      unspawned (s.pc k) = true ∨ (k ≠ 0 ∧ Failed s.log k)
  check : ∀ k, s.held (.specChecked k) = true →
    unchecked (s.pc k) = true ∨ (k ≠ 0 ∧ Failed s.log k) ∨
      s.partialSize ≤ k ∨ s.pc (k + 1) = .checkStart ∨
      Event.checkStarted (k + 1) ∈ s.log
  wait : ∀ k, k ≠ 0 → awaitsNext (s.pc k) = true →
    s.partialSize = k + 1 → Failed s.log (k + 1)
  commit : ∀ i, Event.signalled i ∈ s.log →
    s.held (.dataCommitted i) = true →
      (∃ k, k + 1 = i ∧ s.pc k = .waitNextRelease) ∨
        ∃ k, waitedFor i (s.pc k) = true
  before : ∀ k i, s.pc k = .waitGroupAcquire i → i < k
  signalled : ∀ k,
    s.pc k = .waitNext ∨ s.pc k = .waitNextRelease →
      Event.signalled k ∈ s.log
  tests : ∀ k, s.pc k = .lastTest →
    s.partialSize ≤ k + 1 ∨
      (Event.signalled k ∈ s.log ∧
        Event.signalled (k + 1) ∈ s.log)
  gone : ∀ k why, s.pc k = .exited why →
    s.partialSize ≤ k ∨ s.partialSize ≤ 1 ∨
      (k + 1 < s.partialSize ∧ Event.signalled k ∈ s.log ∧
        Event.signalled (k + 1) ∈ s.log)
  failed : ∀ k why, k ≠ 0 → Failed s.log k →
    s.pc k = .exited why → Event.signalled k ∈ s.log

section Steps

variable {cfg : Group ρ}
variable {s s' : State ρ}
variable {k : Nat}
variable {act : Act}
variable {move : Move ρ}

theorem TaskMoved.mem
    (h : TaskMoved s s' k move)
    {e : Event ρ}
    (he : e ∈ s.log) :
    e ∈ s'.log := by
  rw [h.log]
  exact List.mem_append_left _ he

theorem TaskMoved.fails
    (h : TaskMoved s s' k move)
    {j : Nat}
    (hj : Failed s.log j) :
    Failed s'.log j :=
  hj.imp h.mem h.mem

/- Other tasks have their points from before. -/
theorem TaskMoved.at
    (h : TaskMoved s s' k move)
    {j : Nat}
    {pc : Pc ρ}
    (hj : j ≠ k)
    (hPc : s'.pc j = pc)
    (hGap : pc ≠ .gap) :
    s.pc j = pc :=
  (h.back j hj (by rw [hPc]; exact hGap)).trans hPc

/- The size stays, or a task that may shrink it does. -/
theorem TaskMoved.shrinks
    (hSignal : SignalInv s)
    (hInv : ProgressInv s)
    (hOk : SteadyTasks cfg s (.task k, act))
    (hMove : TaskMove cfg k s.partialSize (s.pc k) act move)
    (h : TaskMoved s s' k move) :
    s'.partialSize = s.partialSize ∨
      (s'.partialSize < s.partialSize ∧
        settled (s.pc k) = false ∧
        ((s'.partialSize = k ∧ Failed s.log k) ∨
          s'.partialSize = k + 1)) := by
  rw [h.size]
  cases hEffect : move.2.1 with
  | writeSize p =>
      right
      rcases hMove.writes hEffect with ⟨rfl, hNext⟩
      refine ⟨(hOk.shrinks k p rfl hNext).1, ?_, ?_⟩
      · by_contra hSettled
        rw [Bool.not_eq_false] at hSettled
        exact (hMove.settled hSettled).2 p hEffect
      · rcases hMove.writes_own (hInv.own k)
            (hSignal.point k) hEffect with hOwn | hNext
        · exact .inl ⟨hOwn.1, .inl hOwn.2⟩
        · exact .inr hNext
  | _ => exact .inl rfl

theorem progressInv_born_move
    (hInv : ProgressInv s)
    (hLives : act ≠ .die)
    (hLe : s'.partialSize ≤ s.partialSize)
    (hMove : TaskMove cfg k s.partialSize (s.pc k) act move)
    (h : TaskMoved s s' k move)
    {j : Nat}
    (hInside : j + 1 < s'.partialSize)
    (hUnborn : s'.pc (j + 1) = .unborn) :
    unspawned (s'.pc j) = true ∨
      (j ≠ 0 ∧ Failed s'.log j) := by
  have hNext : j + 1 ≠ k := by
    intro hEq
    subst hEq
    exact hMove.born (hInv.own _) (h.self ▸ hUnborn)
  have hOld : s.pc (j + 1) = .unborn :=
    h.at hNext hUnborn (by simp)
  rcases hInv.born j (by omega) hOld with
    hUnspawned | hFailed
  · by_cases hEq : j = k
    · subst hEq
      rcases hMove.unspawned_keep hLives (by omega)
          hUnspawned with
        hFork | hKeep | hAborts
      · rw [h.fork hFork] at hUnborn
        cases hUnborn
      · left
        rw [h.self]
        exact hKeep
      · refine .inr ⟨hAborts.1, .inl ?_⟩
        rw [h.log]
        exact List.mem_append_right _ hAborts.2
    · left
      rw [h.same unspawned rfl hEq]
      exact hUnspawned
  · exact .inr ⟨hFailed.1, h.fails hFailed.2⟩

theorem progressInv_check_move
    (hInv : ProgressInv s)
    (hLives : act ≠ .die)
    (hLe : s'.partialSize ≤ s.partialSize)
    (hMove : TaskMove cfg k s.partialSize (s.pc k) act move)
    (h : TaskMoved s s' k move)
    {j : Nat}
    (hHeld : s'.held (.specChecked j) = true) :
    unchecked (s'.pc j) = true ∨ (j ≠ 0 ∧ Failed s'.log j) ∨
      s'.partialSize ≤ j ∨ s'.pc (j + 1) = .checkStart ∨
      Event.checkStarted (j + 1) ∈ s'.log := by
  rw [h.held] at hHeld
  rcases held_of_heldAfter hHeld with hAcquire | hOld
  · -- the next task takes the lock
    rcases hMove.takes_check hAcquire with
      ⟨hIndex, hWaits, hStarts⟩
    have hSpec : k ≠ 0 := by
      intro hEq
      have hMain := hInv.main.2
      rw [← hEq, hWaits] at hMain
      cases hMain
    have hNext : j + 1 = k := by omega
    refine .inr (.inr (.inr (.inl ?_)))
    rw [hNext, h.self]
    exact hStarts
  · rcases hInv.check j hOld.1 with
      hUnchecked | hFailed | hOutside | hTaken | hStarted
    · by_cases hEq : j = k
      · subst hEq
        have hMain : j = 0 → offMain (s.pc j) = false := by
          intro hZero
          rw [hZero]
          exact hInv.main.2
        rcases hMove.unchecked_keep hLives hMain
            hUnchecked with
          hRelease | hKeep | hAborts | hOutside
        · exact absurd hRelease hOld.2
        · left
          rw [h.self]
          exact hKeep
        · refine .inr (.inl ⟨hAborts.1, .inl ?_⟩)
          rw [h.log]
          exact List.mem_append_right _ hAborts.2
        · exact .inr (.inr (.inl (by omega)))
      · left
        rw [h.same unchecked rfl hEq]
        exact hUnchecked
    · exact .inr (.inl ⟨hFailed.1, h.fails hFailed.2⟩)
    · exact .inr (.inr (.inl (by omega)))
    · refine .inr (.inr (.inr ?_))
      by_cases hEq : j + 1 = k
      · right
        rw [h.log, hEq]
        exact List.mem_append_right _
          (hMove.starts_check hLives (hEq ▸ hTaken))
      · left
        rw [h.keep (j + 1) hEq (by simp [hTaken])]
        exact hTaken
    · exact .inr (.inr (.inr (.inr (h.mem hStarted))))

theorem progressInv_wait_move
    (hInv : ProgressInv s)
    (hMove : TaskMove cfg k s.partialSize (s.pc k) act move)
    (h : TaskMoved s s' k move)
    (hShrinks : s'.partialSize = s.partialSize ∨
      (s'.partialSize < s.partialSize ∧
        settled (s.pc k) = false ∧
        ((s'.partialSize = k ∧ Failed s.log k) ∨
          s'.partialSize = k + 1)))
    {j : Nat}
    (hSpec : j ≠ 0)
    (hAwaits : awaitsNext (s'.pc j) = true)
    (hLast : s'.partialSize = j + 1) :
    Failed s'.log (j + 1) := by
  by_cases hEq : j = k
  · subst hEq
    rw [h.self] at hAwaits
    rcases hMove.awaitsNext (hInv.own j) hSpec hAwaits with
      ⟨hOld | hInside, hSame⟩
    · have hSize : s.partialSize = j + 1 := by
        rw [← hLast, h.size, hSame]
      exact h.fails (hInv.wait j hSpec hOld hSize)
    · have hSize : s.partialSize = j + 1 := by
        rw [← hLast, h.size, hSame]
      omega
  · have hOld : awaitsNext (s.pc j) = true := by
      rw [← h.same awaitsNext rfl hEq]
      exact hAwaits
    rcases hShrinks with hSame | ⟨-, -, hOwn | hNext⟩
    · exact h.fails (hInv.wait j hSpec hOld (by omega))
    · have hIndex : j + 1 = k := by omega
      rw [hIndex]
      exact h.fails hOwn.2
    · omega

theorem progressInv_commit_move
    (hInv : ProgressInv s)
    (hLives : act ≠ .die)
    (hQuiet : Quiet s')
    (hMove : TaskMove cfg k s.partialSize (s.pc k) act move)
    (h : TaskMoved s s' k move)
    {i : Nat}
    (hSignalled : Event.signalled i ∈ s'.log)
    (hHeld : s'.held (.dataCommitted i) = true) :
    (∃ j, j + 1 = i ∧ s'.pc j = .waitNextRelease) ∨
      ∃ j, waitedFor i (s'.pc j) = true := by
  rw [h.held] at hHeld
  rcases held_of_heldAfter hHeld with hAcquire | hOld
  · rcases hMove.takes_data hAcquire with hNext | hWaited
    · exact .inl ⟨k, hNext.1, h.self.trans hNext.2⟩
    · refine .inr ⟨k, ?_⟩
      rw [h.self]
      exact hWaited
  · have hBefore : Event.signalled i ∈ s.log := by
      rw [h.log, List.mem_append] at hSignalled
      rcases hSignalled with hMem | hNew
      · exact hMem
      · exact absurd (hMove.signals_release hNew) hOld.2
    rcases hInv.commit i hBefore hOld.1 with hNext | hWaited
    · rcases hNext with ⟨j, hIndex, hPc⟩
      by_cases hEq : j = k
      · subst hEq
        have hRelease := hMove.gives_back hLives hPc
        rw [hIndex] at hRelease
        exact absurd hRelease hOld.2
      · refine .inl ⟨j, hIndex, ?_⟩
        rw [h.keep j hEq (by simp [hPc])]
        exact hPc
    · rcases hWaited with ⟨j, hj⟩
      refine .inr ⟨j, h.view (waitedFor i) rfl ?_ hj⟩
      intro hSelf
      rcases hMove.waitedFor_keep hLives hSelf with
        hKeep | hCommits
      · exact hKeep
      · exfalso
        apply hQuiet.uncommitted k
        rw [h.log]
        exact List.mem_append_right _ hCommits

/- The tests of tasks that wait, signal and leave. -/
theorem progressInv_tests_move
    (hSignal : SignalInv s)
    (hInv : ProgressInv s)
    (hLe : s'.partialSize ≤ s.partialSize)
    (hMove : TaskMove cfg k s.partialSize (s.pc k) act move)
    (h : TaskMoved s s' k move)
    {j : Nat}
    (hTests : s'.pc j = .lastTest) :
    s'.partialSize ≤ j + 1 ∨
      (Event.signalled j ∈ s'.log ∧
        Event.signalled (j + 1) ∈ s'.log) := by
  by_cases hEq : j = k
  · subst hEq
    rcases hMove.tests (hInv.own j) (h.self ▸ hTests) with
      hLast | hWaited
    · exact .inl (by omega)
    · have hPoint := hSignal.point j
      rw [hWaited] at hPoint
      exact .inr ⟨h.mem (hInv.signalled j (.inr hWaited)),
        h.mem hPoint⟩
  · rcases hInv.tests j (h.at hEq hTests (by simp)) with
      hLast | hBoth
    · exact .inl (by omega)
    · exact .inr ⟨h.mem hBoth.1, h.mem hBoth.2⟩

theorem progressInv_gone_move
    (hFail : FailInv s)
    (hPrefix : PrefixInv s)
    (hSignal : SignalInv s)
    (hInv : ProgressInv s)
    (hLives : act ≠ .die)
    (hLe : s'.partialSize ≤ s.partialSize)
    (hMove : TaskMove cfg k s.partialSize (s.pc k) act move)
    (h : TaskMoved s s' k move)
    (hShrinks : s'.partialSize = s.partialSize ∨
      (s'.partialSize < s.partialSize ∧
        settled (s.pc k) = false ∧
        ((s'.partialSize = k ∧ Failed s.log k) ∨
          s'.partialSize = k + 1)))
    {j : Nat}
    {why : Why}
    (hGone : s'.pc j = .exited why) :
    s'.partialSize ≤ j ∨ s'.partialSize ≤ 1 ∨
      (j + 1 < s'.partialSize ∧
        Event.signalled j ∈ s'.log ∧
        Event.signalled (j + 1) ∈ s'.log) := by
  by_cases hEq : j = k
  · subst hEq
    have hMain : j = 0 → offMain (s.pc j) = false := by
      intro hZero
      rw [hZero]
      exact hInv.main.2
    rcases hMove.leaves hLives hMain (hInv.own j)
        (h.self ▸ hGone) with
      ⟨-, hAbort | hOutside | ⟨hTests, hNotLast⟩⟩
    · have hAborted : Event.aborted j ∈ s.log := by
        have hPoint := hSignal.point j
        rw [hAbort] at hPoint
        exact hPoint
      have hSpec : j ≠ 0 := by
        intro hZero
        exact hSignal.main (hZero ▸ hAborted)
      have hFailing := hFail.failing j hSpec (.inl hAborted)
      rw [hAbort] at hFailing
      simp only [failing, decide_eq_true_eq] at hFailing
      exact .inl (by omega)
    · exact .inl (by omega)
    · -- neither is it the last one, nor alone
      rcases hInv.tests j hTests with hLast | hBoth
      · by_cases hZero : j = 0
        · exact .inr (.inl (by omega))
        · exact .inl (by omega)
      · by_cases hInside : j + 1 < s'.partialSize
        · exact .inr (.inr ⟨hInside, h.mem hBoth.1,
            h.mem hBoth.2⟩)
        · by_cases hZero : j = 0
          · exact .inr (.inl (by omega))
          · left
            rcases hShrinks with hSame | ⟨-, hOff, -⟩
            · omega
            · rw [hTests] at hOff
              cases hOff
  · rcases hInv.gone j why (h.at hEq hGone (by simp)) with
      hOutside | hAlone | ⟨hInside, hBoth⟩
    · exact .inl (by omega)
    · exact .inr (.inl (by omega))
    · by_cases hStill : j + 1 < s'.partialSize
      · exact .inr (.inr ⟨hStill, h.mem hBoth.1,
          h.mem hBoth.2⟩)
      · left
        -- the next task has signalled and writes no size
        rcases hShrinks with hSame | ⟨-, hOff, hOwn | hNext⟩
        · omega
        · by_contra hLast
          have hIndex : k = j + 1 := by omega
          have hSettled := hPrefix.signalled k
            (hIndex ▸ hBoth.2)
          rw [hOff] at hSettled
          cases hSettled
        · omega

theorem progressInv_failed_move
    (hFail : FailInv s)
    (hInv : ProgressInv s)
    (hLives : act ≠ .die)
    (hMove : TaskMove cfg k s.partialSize (s.pc k) act move)
    (h : TaskMoved s s' k move)
    {j : Nat}
    {why : Why}
    (hSpec : j ≠ 0)
    (hFailed : Failed s'.log j)
    (hGone : s'.pc j = .exited why) :
    Event.signalled j ∈ s'.log := by
  rw [h.log, failed_append] at hFailed
  by_cases hEq : j = k
  · subst hEq
    rw [h.self] at hGone
    rcases hFailed with hOld | hNew
    · rw [h.log]
      exact List.mem_append_right _
        (hMove.leaves_failed hLives hSpec
          (hFail.failing j hSpec hOld) hGone)
    · exact absurd hGone (hMove.fails_stays hNew)
  · have hOld : Failed s.log j := by
      rcases hFailed with hOld | hNew
      · exact hOld
      · exact absurd (hMove.fails hNew).1 hEq
    exact h.mem (hInv.failed j why hSpec hOld
      (h.at hEq hGone (by simp)))

theorem progressInv_move
    (hFail : FailInv s)
    (hPrefix : PrefixInv s)
    (hSignal : SignalInv s)
    (hInv : ProgressInv s)
    (hOk : SteadyTasks cfg s (.task k, act))
    (hQuiet : Quiet s')
    (hMove : TaskMove cfg k s.partialSize (s.pc k) act move)
    (h : TaskMoved s s' k move) :
    ProgressInv s' := by
  have hLives : act ≠ .die := hOk.lives
  have hShrinks := h.shrinks hSignal hInv hOk hMove
  have hLe : s'.partialSize ≤ s.partialSize := by omega
  refine ⟨?_, ⟨?_, ?_⟩, ?_, ?_, ?_, ?_, ?_, ?_, ?_, ?_, ?_⟩
  · intro j
    by_cases hEq : j = k
    · rw [hEq, h.self]
      exact hMove.writesOwn (hInv.own k)
    · rw [h.same (writesOwn j) rfl hEq]
      exact hInv.own j
  · by_cases hMain : k = 0
    · subst hMain
      rw [h.self]
      exact hMove.born (hInv.own 0)
    · rw [h.keep 0 (Ne.symm hMain) hInv.main.1]
      exact hInv.main.1
  · by_cases hMain : k = 0
    · subst hMain
      rw [h.self]
      apply hMove.offMain (hInv.own 0)
      intro hFails
      exact hOk.passes (by rw [hFails])
    · rw [h.keep 0 (Ne.symm hMain) hInv.main.1]
      exact hInv.main.2
  · intro j hInside hUnborn
    exact progressInv_born_move hInv hLives hLe hMove h
      hInside hUnborn
  · intro j hHeld
    exact progressInv_check_move hInv hLives hLe hMove h
      hHeld
  · intro j hSpec hAwaits hLast
    exact progressInv_wait_move hInv hMove h hShrinks hSpec
      hAwaits hLast
  · intro i hSignalled hHeld
    exact progressInv_commit_move hInv hLives hQuiet hMove h
      hSignalled hHeld
  · intro j i hWaits
    by_cases hEq : j = k
    · subst hEq
      rcases hMove.waits_before (hInv.own j)
          (h.self ▸ hWaits) with
        ⟨hPc, hInside⟩
      have hSize := hFail.size j (by rw [hPc]; rfl)
      omega
    · exact hInv.before j i (h.at hEq hWaits (by simp))
  · intro j hWaits
    by_cases hEq : j = k
    · subst hEq
      rcases hMove.waits_signalled (hInv.own j)
          (h.self ▸ hWaits) with
        hNew | hWaited
      · rw [h.log]
        exact List.mem_append_right _ hNew
      · exact h.mem (hInv.signalled j (.inl hWaited))
    · apply h.mem
      apply hInv.signalled j
      exact hWaits.imp (fun hPc => h.at hEq hPc (by simp))
        (fun hPc => h.at hEq hPc (by simp))
  · intro j hTests
    exact progressInv_tests_move hSignal hInv hLe hMove h
      hTests
  · intro j why hGone
    exact progressInv_gone_move hFail hPrefix hSignal hInv
      hLives hLe hMove h hShrinks hGone
  · intro j why hSpec hFailed hGone
    exact progressInv_failed_move hFail hInv hLives hMove h
      hSpec hFailed hGone

/- Steps of the understudy leave the tasks alone. -/
theorem progressInv_aside
    (hInv : ProgressInv s)
    (hPc : s'.pc = s.pc)
    (hSize : s'.partialSize = s.partialSize)
    (hHeld : ∀ lock, lock.ofUndy = false →
      s'.held lock = s.held lock)
    (hLog : s'.log = s.log ∨
      s'.log = s.log ++ [.becameSeq .undy]) :
    ProgressInv s' := by
  have hMem :
      ∀ e : Event ρ, e ≠ .becameSeq .undy →
        (e ∈ s'.log ↔ e ∈ s.log) :=
    fun e => mem_log_of_aside hLog
  have hFailed : ∀ j, Failed s'.log j ↔ Failed s.log j := by
    intro j
    simp only [Failed, hMem _ (by simp :
      Event.aborted j ≠ .becameSeq .undy), hMem _ (by simp :
      Event.checkEnded j false ≠ .becameSeq .undy)]
  have hSignalled :
      ∀ j, Event.signalled j ∈ s'.log ↔
        Event.signalled j ∈ s.log :=
    fun j => hMem _ (by simp)
  have hStarted :
      ∀ j, Event.checkStarted j ∈ s'.log ↔
        Event.checkStarted j ∈ s.log :=
    fun j => hMem _ (by simp)
  have hCheck :
      ∀ j, s'.held (.specChecked j) =
        s.held (.specChecked j) :=
    fun j => hHeld _ rfl
  have hData :
      ∀ j, s'.held (.dataCommitted j) =
        s.held (.dataCommitted j) :=
    fun j => hHeld _ rfl
  constructor <;>
    simp only [hPc, hSize, hFailed, hSignalled, hStarted,
      hCheck, hData]
  · exact hInv.own
  · exact hInv.main
  · exact hInv.born
  · exact hInv.check
  · exact hInv.wait
  · exact hInv.commit
  · exact hInv.before
  · exact hInv.signalled
  · exact hInv.tests
  · exact hInv.gone
  · exact hInv.failed

/- An understudy that is ahead stays so. -/
theorem UndyMove.behind
    (h : UndyMove cfg s act s')
    (hOk : NoLosses cfg s (.undy, act))
    (hBehind : s'.undy.ahead = false) :
    s.undy.ahead = false := by
  cases h with
  | usr1 hUsr hAlive =>
      have hTime := hOk.concedes rfl
      cases hUndy : s.undy <;>
        simp_all [UndyPc.ahead, undyAlive, UndyPc.finishing]
  | created hUndy => rw [hUndy]; rfl
  | goOn => exact hBehind
  | finishLine hUndy => rw [hUndy]; rfl
  | killSpecs => cases hBehind
  | killMain => cases hBehind
  | succFini => cases hBehind
  | setSeq => cases hBehind
  | usr2 => exact hBehind
  | die => cases hBehind

end Steps

theorem progressInv_step
    {cfg : Group ρ}
    {s s' : State ρ}
    {label : Proc × Act}
    (hReach : (protocol cfg).Reachable (SteadyTasks cfg) s)
    (hInv : Quiet s → ProgressInv s)
    (hOk : SteadyTasks cfg s label)
    (hStep : step cfg s label = some s')
    (hQuiet : Quiet s') :
    ProgressInv s' := by
  have hLosses : (protocol cfg).Reachable (NoLosses cfg) s :=
    hReach.mono (fun _ _ hOk => hOk.toNoLosses)
  have hShrinks :
      (protocol cfg).Reachable (ShrinksInTime cfg) s :=
    hLosses.mono (fun _ _ hOk => hOk.shrinks)
  have hUnspawned := unspawned_of_reachable hReach
  have hSurvivor := survivorInv_of_reachable hReach
  have hAwait := awaitInv_of_reachable hLosses
  cases stepped_of_step hStep with
  | move hMove hApply =>
      have hMoved :=
        taskMoved_of_apply hUnspawned hMove hApply
      have hUndy := undy_of_move hSurvivor hMove hApply
      exact progressInv_move (failInv_of_reachable hShrinks)
        (prefixInv_of_reachable hShrinks)
        (signalInv_of_reachable hReach)
        (hInv (hMoved.quiet hUndy hQuiet)) hOk hQuiet hMove
        hMoved
  | @usr1 k hUsr hAlive =>
      rcases taskUsr1_undy s k with ⟨hUndy, -, hLog⟩
      exact absurd
        ⟨hUndy ▸ hQuiet.behind, hLog ▸ hQuiet.uncommitted⟩
        (hAwait.usr1 _ hUsr)
  | @usr2 k hUsr hAlive =>
      have hAhead := aheadInv_of_reachable
        (hLosses.mono (fun _ _ hOk => hOk.concedes))
      have hWon : s.undy.ahead = true := hAhead.pending k hUsr
      have hBehind : s.undy.ahead = false := hQuiet.behind
      rw [hWon] at hBehind
      cases hBehind
  | undy hUndy =>
      rcases hUndy.frame with ⟨hPc, hSize, hHeld, hLog⟩
      have hBefore : Quiet s := by
        refine ⟨hUndy.behind hOk.toNoLosses hQuiet.behind, ?_⟩
        intro j hj
        apply hQuiet.uncommitted j
        rw [mem_log_of_aside hLog (by simp)]
        exact hj
      exact progressInv_aside (hInv hBefore) hPc hSize hHeld
        hLog

theorem progressInv_of_reachable
    {cfg : Group ρ}
    {s : State ρ}
    (h : (protocol cfg).Reachable (SteadyTasks cfg) s)
    (hQuiet : Quiet s) :
    ProgressInv s := by
  refine h.invariant (fun s => Quiet s → ProgressInv s)
    ?_ ?_ hQuiet
  · intro _
    have hPc :
        ∀ k, (State.init cfg).pc k =
          if k = 0 then .gap else .unborn :=
      fun _ => rfl
    constructor <;> simp only [protocol, hPc]
    · intro k
      split <;> rfl
    · exact ⟨by simp, rfl⟩
    · intro k _ _
      left
      split <;> rfl
    · intro k _
      left
      split <;> rfl
    · intro k hSpec hAwaits
      simp [hSpec, awaitsNext] at hAwaits
    · simp [State.init]
    · intro k i hWaits
      split at hWaits <;> cases hWaits
    · intro k hWaits
      by_cases hMain : k = 0 <;> simp [hMain] at hWaits
    · intro k hTests
      split at hTests <;> cases hTests
    · intro k why hGone
      split at hGone <;> cases hGone
    · intro k why _ _ hGone
      split at hGone <;> cases hGone
  · intro s label s' hReach hInv hOk hStep
    exact progressInv_step hReach hInv hOk hStep

------------------------------------------------------------
-- Stuck Tasks
------------------------------------------------------------

/- Where a task can be stuck before the group has committed. -/
def resting : Pc ρ → Bool
| .waitNext => true
| .waitGroupAcquire _ => true
| .exited _ => true
| _ => false

section Stuck

variable {cfg : Group ρ}
variable {s : State ρ}

/- A task that waits for its check has not started it. -/
theorem unstarted_of_before
    {b : Baton}
    {k : Nat}
    (hCheck : CheckInv cfg s.relay b)
    (hBefore : phase (s.pc k) = .before) :
    Event.checkStarted k ∉ s.log := by
  intro hStarted
  have hMem : k ∈ starts s.log := by
    simpa [starts] using ⟨_, hStarted, rfl⟩
  have hStarts : starts s.log = List.range b.count :=
    hCheck.starts_eq
  have hCount := hCheck.before k hBefore
  rw [hStarts, List.mem_range] at hMem
  omega

theorem sync_free_of_blocked
    (hAwait : AwaitInv s)
    (hQuiet : Quiet s)
    (hBlocked : ∀ k, blocked s k (s.pc k)) :
    s.held .sync = false := by
  by_contra hHeld
  rcases hAwait.sync hQuiet (by simpa using hHeld) with
    ⟨k, hk⟩
  exact not_blocked_of_holdsSync hk (hBlocked k)

/- When all tasks are stuck, the failed ones are gone. -/
theorem failed_gone
    {k : Nat}
    (hFail : FailInv s)
    (hSync : s.held .sync = false)
    (hBlocked : blocked s k (s.pc k))
    (hSpec : k ≠ 0)
    (hFailed : Failed s.log k) :
    ∃ why, s.pc k = .exited why := by
  have hFailing := hFail.failing k hSpec hFailed
  cases hPc : s.pc k <;>
    simp_all [failing, blocked]

theorem failed_outside
    {k : Nat}
    (hFail : FailInv s)
    (hInv : ProgressInv s)
    (hSync : s.held .sync = false)
    (hBlocked : blocked s k (s.pc k))
    (hSpec : k ≠ 0)
    (hFailed : Failed s.log k) :
    s.partialSize ≤ k := by
  rcases failed_gone hFail hSync hBlocked hSpec hFailed with
    ⟨why, hGone⟩
  rcases hInv.gone k why hGone with
    hOutside | hAlone | ⟨-, hSignalled, -⟩
  · exact hOutside
  · omega
  · exact hFail.shrunk k hSpec hFailed hSignalled

/- Task `k` was forked, and its turn to check has come. -/
theorem turn_of_prior
    {k : Nat}
    {b : Baton}
    (hFail : FailInv s)
    (hCheck : CheckInv cfg s.relay b)
    (hInv : ProgressInv s)
    (hSync : s.held .sync = false)
    (hBlocked : ∀ k, blocked s k (s.pc k))
    (hInside : k + 1 < s.partialSize)
    (hRests : resting (s.pc k) = true) :
    s.pc (k + 1) ≠ .unborn ∧ s.pc (k + 1) ≠ .waitPrior := by
  have hClean : ¬(k ≠ 0 ∧ Failed s.log k) := by
    rintro ⟨hSpec, hFailed⟩
    have hOutside := failed_outside hFail hInv hSync
      (hBlocked k) hSpec hFailed
    omega
  constructor
  · intro hUnborn
    rcases hInv.born k hInside hUnborn with hGap | hFailed
    · cases hPc : s.pc k <;>
        simp_all [resting, unspawned]
    · exact hClean hFailed
  · intro hWaits
    have hHeld : s.held (.specChecked k) = true := by
      have hPoint := hBlocked (k + 1)
      rw [hWaits] at hPoint
      exact hPoint
    rcases hInv.check k hHeld with
      hUnchecked | hFailed | hOutside | hStarts | hStarted
    · cases hPc : s.pc k <;>
        simp_all [resting, unchecked]
    · exact hClean hFailed
    · omega
    · rw [hWaits] at hStarts
      cases hStarts
    · exact unstarted_of_before hCheck
        (by rw [hWaits]; rfl) hStarted

/- The tasks of the group have checked, one by one. -/
theorem rests_of_blocked
    {b : Baton}
    (hFail : FailInv s)
    (hCheck : CheckInv cfg s.relay b)
    (hProceed : ProceedInv s)
    (hInv : ProgressInv s)
    (hQuiet : Quiet s)
    (hSync : s.held .sync = false)
    (hBlocked : ∀ k, blocked s k (s.pc k)) :
    ∀ k, k < s.partialSize → resting (s.pc k) = true := by
  have hRests :
      ∀ k, s.pc k ≠ .unborn → s.pc k ≠ .waitPrior →
        resting (s.pc k) = true := by
    intro k hBorn hTurn
    have hPoint := hBlocked k
    have hOff : committer (s.pc k) = false := by
      by_contra hCommitter
      exact hQuiet.uncommitted k
        (hProceed.committer k (by simpa using hCommitter))
    cases hPc : s.pc k <;>
      simp_all [resting, blocked, committer]
  intro k hInside
  induction k with
  | zero =>
      apply hRests 0 hInv.main.1
      intro hWaits
      have hOff := hInv.main.2
      rw [hWaits] at hOff
      cases hOff
  | succ k ih =>
      have hTurn := turn_of_prior hFail hCheck hInv hSync
        hBlocked hInside (ih (by omega))
      exact hRests (k + 1) hTurn.1 hTurn.2

/- A lock of a task that signalled is not waited for. -/
theorem data_free_of_signalled
    {i : Nat}
    (hFail : FailInv s)
    (hInv : ProgressInv s)
    (hBlocked : ∀ k, blocked s k (s.pc k))
    (hSignalled : Event.signalled i ∈ s.log)
    (hLast : ∀ j, i < j →
      s.pc (s.partialSize - 1) ≠ .waitGroupAcquire j) :
    s.held (.dataCommitted i) = false := by
  by_contra hHeld
  rcases hInv.commit i hSignalled (by simpa using hHeld) with
    ⟨k, -, hReturns⟩ | ⟨k, hWaited⟩
  · have hPoint := hBlocked k
    rw [hReturns] at hPoint
    exact hPoint
  · have hPoint := hBlocked k
    cases hPc : s.pc k <;>
      simp_all [waitedFor, blocked]
    rename_i j
    have hSize := hFail.size k (by rw [hPc]; rfl)
    refine hLast j hWaited ?_
    rw [hSize, Nat.add_sub_cancel, hPc]

/- Before the group has committed some task can go on. -/
theorem not_blocked_of_quiet
    {b : Baton}
    (hFail : FailInv s)
    (hCheck : CheckInv cfg s.relay b)
    (hProceed : ProceedInv s)
    (hAwait : AwaitInv s)
    (hInv : ProgressInv s)
    (hQuiet : Quiet s)
    (hSize : 2 ≤ s.partialSize)
    (hBlocked : ∀ k, blocked s k (s.pc k)) :
    False := by
  have hSync := sync_free_of_blocked hAwait hQuiet hBlocked
  have hRests := rests_of_blocked hFail hCheck hProceed hInv
    hQuiet hSync hBlocked
  -- the last task of the group
  obtain ⟨m, hLast⟩ : ∃ m, s.partialSize = m + 1 :=
    ⟨s.partialSize - 1, by omega⟩
  have hPoint := hBlocked m
  have hRest := hRests m (by omega)
  have hEnd : s.partialSize - 1 = m := by omega
  cases hPc : s.pc m <;> rw [hPc] at hRest <;>
    try cases hRest
  case waitNext =>
    rw [hPc] at hPoint
    have hFailed := hInv.wait m (by omega)
      (by rw [hPc]; rfl) hLast
    rcases failed_gone hFail hSync (hBlocked (m + 1))
      (by omega) hFailed with ⟨why, hGone⟩
    have hFree := data_free_of_signalled hFail hInv hBlocked
      (hInv.failed (m + 1) why (by omega) hFailed hGone)
      (by simp [hEnd, hPc])
    rw [show s.held (.dataCommitted (m + 1)) = true
      from hPoint] at hFree
    cases hFree
  case waitGroupAcquire i =>
    rw [hPc] at hPoint
    have hBefore := hInv.before m i hPc
    have hSignalled : Event.signalled i ∈ s.log := by
      have hOther := hRests i (by omega)
      cases hPci : s.pc i <;> rw [hPci] at hOther <;>
        try cases hOther
      case waitNext =>
        exact hInv.signalled i (.inl hPci)
      case waitGroupAcquire j =>
        have hAlso := hFail.size i (by rw [hPci]; rfl)
        omega
      case exited why =>
        rcases hInv.gone i why hPci with
          hOutside | hAlone | hInside
        · omega
        · omega
        · exact hInside.2.1
    have hFree := data_free_of_signalled hFail hInv hBlocked
      hSignalled (by
        intro j hj hOther
        rw [hEnd, hPc] at hOther
        cases hOther
        omega)
    rw [show s.held (.dataCommitted i) = true
      from hPoint] at hFree
    cases hFree
  case exited why =>
    rcases hInv.gone m why hPc with
      hOutside | hAlone | hInside
    · omega
    · omega
    · omega

end Stuck

------------------------------------------------------------
-- Progress
------------------------------------------------------------

/-
  Task `k` has committed the group, and waits for the
  understudy to be there or to concede, or has won.
-/
structure OnlyUndy (s : State ρ) (k : Nat) : Prop where
  last : k + 1 = s.partialSize
  committed : Event.groupCommitted k ∈ s.log
  waits :
    (s.pc k = .waitUndyCreated ∧ s.undy.early = true) ∨
      (s.pc k = .waitUndyConceded ∧ s.undy ≠ .conceded) ∨
      s.pc k = .seq

/- The task that committed waits for the understudy only. -/
theorem onlyUndy_of_blocked
    {s : State ρ}
    {k : Nat}
    (hSurvivor : SurvivorInv s)
    (hProceed : ProceedInv s)
    (hPrefix : PrefixInv s)
    (hAwait : AwaitInv s)
    (hBehind : s.undy.ahead = false)
    (hCommitted : Event.groupCommitted k ∈ s.log)
    (hBlocked : ∀ k, blocked s k (s.pc k)) :
    OnlyUndy s k := by
  have hCommitter := hAwait.stays hBehind k hCommitted
  have hSettled := hPrefix.committed k hCommitted
  have hClaims :
      ∀ j, claims (s.pc j) = true → j = k := by
    intro j hj
    exact committed_unique hPrefix hCommitted
      (hProceed.committer j (committer_of_claims hj))
  refine ⟨((hPrefix.size k hCommitted).2).symm, hCommitted,
    ?_⟩
  have hPoint := hBlocked k
  cases hPc : s.pc k <;>
    simp_all [committer, settled, blocked]
  case waitUndyCreated =>
    rcases hAwait.created hPoint with
      hEarly | hAhead | ⟨j, hj⟩
    · exact hEarly
    · rw [hBehind] at hAhead
      cases hAhead
    · rw [hClaims j hj, hPc] at hj
      cases hj
  case waitUndyConceded =>
    intro hConceded
    rcases hAwait.finish hConceded with
      ⟨j, hWaits | hFini | hWon⟩
    · rw [hWaits.2] at hPoint
      cases hPoint
    · have hOther := hBlocked j
      rw [hFini] at hOther
      exact hOther
    · have hSeq := hSurvivor.seqTask j hWon
      rw [hClaims j (claims_of_outlived
        (outlived_of_isSeq hSeq)), hPc] at hSeq
      cases hSeq

/- A test for `SteadyTasks` among the tasks there are. -/
def steadyTasksTest
    (cfg : Group ρ)
    (s : State ρ)
    (label : Proc × Act) : Bool :=
  noLossesTest cfg s label && label != (.task 0, .fail)

/- The check of task 2 fails, and task 1 waits for it. -/
def untilThirdFails : List (Proc × Act) :=
  List.replicate 10 (.task 0, .go) ++
    List.replicate 11 (.task 1, .go) ++
    List.replicate 5 (.task 2, .go) ++
    [(.task 2, .fail)] ++
    List.replicate 4 (.task 2, .go)

end Cbop
