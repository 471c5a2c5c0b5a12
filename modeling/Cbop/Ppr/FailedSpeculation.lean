import Cbop.Ppr.Commits

/-
  When a failed speculation does not commit.

  A task that fails shrinks the group to its predecessors
  and signals. The last task of the group tests the size
  once, before it waits for the others, and not again before
  it commits. If the size shrinks in this window, or if a
  stale write makes it grow, a group commits with a failed
  task in it; if neither happens, none does.

  Main declarations:
    * `Failed`, `window`, `ShrinksInTime`
    * `FailInv`, `failInv_of_reachable`
    * `failed_never_commits`
-/

namespace Cbop

variable {ρ : Type}

------------------------------------------------------------
-- Failures and the Window
------------------------------------------------------------

/- The check of task `k` failed, or the task aborted. -/
def Failed (log : List (Event ρ)) (k : Nat) : Prop :=
  Event.aborted k ∈ log ∨ Event.checkEnded k false ∈ log

/-
  The task passed the test that it is the last one and has
  not committed the group.
-/
def window : Pc ρ → Bool
| .waitGroup _ => true
| .waitGroupAcquire _ => true
| .groupCommit => true
| .setSize _ next => window next
| .setAcquire _ next => window next
| .setWrite _ next => window next
| .setRelease next => window next
| _ => false

/- The size the next step at this point writes. -/
def nextSize
    (cfg : Group ρ)
    (psize : Nat) :
    Pc ρ → Option Nat
| .setSize p _ =>
    if cfg.atomicSet ∧ p < psize then some p else none
| .setWrite p _ => some p
| _ => none

/-
  A step that writes the size makes it smaller, and no task
  outside of the new group is in its window.
-/
def ShrinksInTime
    (cfg : Group ρ)
    (s : State ρ)
    (label : Proc × Act) : Prop :=
  ∀ k p, label = (.task k, .go) →
    nextSize cfg s.partialSize (s.pc k) = some p →
      p < s.partialSize ∧
        ∀ j, p ≤ j → window (s.pc j) = false

/- The task is about to commit the group. -/
def atCommit : Pc ρ → Bool
| .groupCommit => true
| .setSize _ next => atCommit next
| .setAcquire _ next => atCommit next
| .setWrite _ next => atCommit next
| .setRelease next => atCommit next
| _ => false

/- The task committed the group, or is gone. -/
def pastCommit : Pc ρ → Bool
| .groupSignal => true
| .waitUndyCreated => true
| .killUndy => true
| .waitUndyConceded => true
| .succFini => true
| .seq => true
| .exited _ => true
| .setSize _ next => pastCommit next
| .setAcquire _ next => pastCommit next
| .setWrite _ next => pastCommit next
| .setRelease next => pastCommit next
| _ => false

/- The task has not released its own lock. -/
def unsignalled : Pc ρ → Bool
| .waitNext => false
| .waitNextRelease => false
| .lastTest => false
| .waitGroup _ => false
| .waitGroupAcquire _ => false
| .groupCommit => false
| .groupSignal => false
| .waitUndyCreated => false
| .killUndy => false
| .waitUndyConceded => false
| .succFini => false
| .seq => false
| .exited _ => false
| .setSize _ next => unsignalled next
| .setAcquire _ next => unsignalled next
| .setWrite _ next => unsignalled next
| .setRelease next => unsignalled next
| _ => true

/-
  Where a task that failed can stand: on its way to shrink
  the group, past that with the group shrunk, or gone.
-/
def failing (psize k : Nat) : Pc ρ → Bool
| .checked false => true
| .setSize p .abortSignal => p = k
| .setAcquire p .abortSignal => p = k
| .setWrite p .abortSignal => p = k
| .setRelease .abortSignal => psize ≤ k
| .abortSignal => psize ≤ k
| .exited _ => true
| _ => false

theorem failing_mono
    {psize psize' k : Nat}
    {pc : Pc ρ}
    (hLe : psize' ≤ psize)
    (h : failing psize k pc = true) :
    failing psize' k pc = true := by
  unfold failing at h ⊢
  split at h <;> simp_all <;> omega

------------------------------------------------------------
-- Moves
------------------------------------------------------------

theorem TaskMove.writes
    {cfg : Group ρ}
    {k psize p : Nat}
    {pc : Pc ρ}
    {act : Act}
    {move : Move ρ}
    (h : TaskMove cfg k psize pc act move)
    (hWrite : move.2.1 = .writeSize p) :
    act = .go ∧ nextSize cfg psize pc = some p := by
  cases h <;> simp_all [nextSize]

theorem TaskMove.window
    {cfg : Group ρ}
    {k psize : Nat}
    {pc : Pc ρ}
    {act : Act}
    {move : Move ρ}
    (h : TaskMove cfg k psize pc act move)
    (hWindow : Cbop.window move.1 = true) :
    Cbop.window pc = true ∨
      psize = k + 1 ∧ move.2.1 = .quiet := by
  cases h
  case last hLast hMain =>
    exact .inr ⟨by omega, rfl⟩
  all_goals simp_all [Cbop.window]

theorem TaskMove.atCommit
    {cfg : Group ρ}
    {k psize : Nat}
    {pc : Pc ρ}
    {act : Act}
    {move : Move ρ}
    (h : TaskMove cfg k psize pc act move)
    (hCommit : Cbop.atCommit move.1 = true) :
    Cbop.atCommit pc = true ∨
      ∃ i, pc = .waitGroup i ∧ psize - 1 ≤ i := by
  cases h
  case waitOver i hOver => exact .inr ⟨i, rfl, hOver⟩
  all_goals simp_all [Cbop.atCommit]

theorem TaskMove.pastCommit
    {cfg : Group ρ}
    {k psize : Nat}
    {pc : Pc ρ}
    {act : Act}
    {move : Move ρ}
    (h : TaskMove cfg k psize pc act move)
    (hPast : Cbop.pastCommit pc = true) :
    Cbop.pastCommit move.1 = true := by
  cases h
  case specAbort hMay _ =>
    cases pc <;>
      simp_all [mayAbort, userCode, Cbop.pastCommit]
  all_goals simp_all [Cbop.pastCommit]

theorem TaskMove.commits
    {cfg : Group ρ}
    {k psize i : Nat}
    {pc : Pc ρ}
    {act : Act}
    {move : Move ρ}
    (h : TaskMove cfg k psize pc act move)
    (hCommit : Event.groupCommitted i ∈ move.2.2) :
    i = k ∧ pc = .groupCommit ∧
      Cbop.pastCommit move.1 = true := by
  cases h <;> simp_all [Cbop.pastCommit]

theorem TaskMove.unsignalled
    {cfg : Group ρ}
    {k psize : Nat}
    {pc : Pc ρ}
    {act : Act}
    {move : Move ρ}
    (h : TaskMove cfg k psize pc act move)
    (hUnsignalled : Cbop.unsignalled move.1 = true) :
    Cbop.unsignalled pc = true ∧
      ∀ i, Event.signalled i ∉ move.2.2 := by
  cases h
  case specAbort hMay _ =>
    cases pc <;>
      simp_all [mayAbort, userCode, Cbop.unsignalled]
  all_goals simp_all [Cbop.unsignalled]

/- A task that failed only shrinks the group and leaves. -/
theorem TaskMove.failing
    {cfg : Group ρ}
    {k psize : Nat}
    {pc : Pc ρ}
    {act : Act}
    {move : Move ρ}
    (h : TaskMove cfg k psize pc act move)
    (hk : k ≠ 0)
    (hFailing : Cbop.failing psize k pc = true) :
    Cbop.failing (sizeAfter psize move.2.1) k move.1 =
      true := by
  cases h
  case setSkip p next hSkip =>
    cases next <;> simp_all [Cbop.failing, sizeAfter]
  case setAtomic p next _ _ =>
    cases next <;> simp_all [Cbop.failing, sizeAfter]
  case setTest p next _ _ =>
    cases next <;> simp_all [Cbop.failing]
  case setAcquire p next =>
    cases next <;> simp_all [Cbop.failing]
  case setWrite p next =>
    cases next <;> simp_all [Cbop.failing, sizeAfter]
  case setRelease next =>
    cases next <;> simp_all [Cbop.failing, sizeAfter]
  case work => exact hFailing
  case mainAbort => contradiction
  case abortNext hUser =>
    cases pc <;> simp_all [userCode, Cbop.failing]
  all_goals simp_all [Cbop.failing]

/- A task fails before it signals or commits anything. -/
theorem TaskMove.fails
    {cfg : Group ρ}
    {k psize i : Nat}
    {pc : Pc ρ}
    {act : Act}
    {move : Move ρ}
    (h : TaskMove cfg k psize pc act move)
    (hFail : Failed move.2.2 i) :
    i = k ∧ Cbop.unsignalled pc = true ∧
      Cbop.pastCommit pc = false ∧
      Cbop.failing (sizeAfter psize move.2.1) k move.1 =
        true := by
  cases h
  case specAbort hMay _ =>
    cases pc <;>
      simp_all [Failed, mayAbort, userCode,
        Cbop.unsignalled, Cbop.pastCommit, Cbop.failing]
  all_goals
    simp_all [Failed, Cbop.unsignalled, Cbop.pastCommit,
      Cbop.failing]

/- A failed task signals when the group has shrunk. -/
theorem TaskMove.signals_shrunk
    {cfg : Group ρ}
    {k psize i : Nat}
    {pc : Pc ρ}
    {act : Act}
    {move : Move ρ}
    (h : TaskMove cfg k psize pc act move)
    (hSignal : Event.signalled i ∈ move.2.2) :
    i = k ∧ sizeAfter psize move.2.1 = psize ∧
      (∀ j, ¬Failed move.2.2 j) ∧
      (Cbop.failing psize k pc = true → psize ≤ k) := by
  cases h <;> simp_all [sizeAfter, Cbop.failing, Failed]

------------------------------------------------------------
-- The Invariant
------------------------------------------------------------

structure FailInv (s : State ρ) : Prop where
  size : ∀ j, window (s.pc j) = true →
    s.partialSize = j + 1
  ready : ∀ j, atCommit (s.pc j) = true →
    ∀ i, i < j → Event.signalled i ∈ s.log
  failing : ∀ k, k ≠ 0 → Failed s.log k →
    Cbop.failing s.partialSize k (s.pc k) = true
  unsignalled : ∀ k, Cbop.unsignalled (s.pc k) = true →
    Event.signalled k ∉ s.log
  shrunk : ∀ k, k ≠ 0 → Failed s.log k →
    Event.signalled k ∈ s.log → s.partialSize ≤ k
  past : ∀ j, Event.groupCommitted j ∈ s.log →
    pastCommit (s.pc j) = true
  behind : ∀ j, Event.groupCommitted j ∈ s.log →
    ∀ i, i < j → Event.signalled i ∈ s.log
  clean : ∀ j, Event.groupCommitted j ∈ s.log →
    ∀ k, k ≠ 0 → k ≤ j → ¬Failed s.log k

theorem failed_append
    {log events : List (Event ρ)}
    {k : Nat} :
    Failed (log ++ events) k ↔
      Failed log k ∨ Failed events k := by
  simp only [Failed, List.mem_append]
  tauto

/- The task that commits the group has no failed task. -/
theorem clean_of_commit
    {s : State ρ}
    (hInv : FailInv s)
    {j k : Nat}
    (hPc : s.pc j = .groupCommit)
    (hk : k ≠ 0)
    (hLe : k ≤ j) :
    ¬Failed s.log k := by
  intro hFailed
  by_cases hSelf : k = j
  · subst hSelf
    have hFailing := hInv.failing k hk hFailed
    simp [hPc, failing] at hFailing
  · have hSignal := hInv.ready j (by rw [hPc]; rfl) k
      (by omega)
    have hShrunk := hInv.shrunk k hk hFailed hSignal
    have hSize := hInv.size j (by rw [hPc]; rfl)
    omega

/-
  A move that shrinks in time never raises the size, and
  leaves it while a task is in its window.
-/
theorem size_of_move
    {cfg : Group ρ}
    {s s' : State ρ}
    {k : Nat}
    {act : Act}
    {move : Move ρ}
    (hInv : FailInv s)
    (hOk : ShrinksInTime cfg s (.task k, act))
    (hMove : TaskMove cfg k s.partialSize (s.pc k) act move)
    (hSize : s'.partialSize =
      sizeAfter s.partialSize move.2.1) :
    s'.partialSize ≤ s.partialSize ∧
      ∀ j, window (s.pc j) = true →
        s'.partialSize = s.partialSize := by
  have hWrite :
      ∀ p, move.2.1 = .writeSize p →
        p < s.partialSize ∧
          ∀ j, p ≤ j → window (s.pc j) = false := by
    intro p hp
    rcases hMove.writes hp with ⟨rfl, hNext⟩
    exact hOk k p rfl hNext
  rw [hSize]
  constructor
  · cases hEffect : move.2.1 <;> simp [sizeAfter]
    case writeSize p =>
      exact Nat.le_of_lt (hWrite p hEffect).1
  · intro j hj
    cases hEffect : move.2.1 <;> simp only [sizeAfter]
    case writeSize p =>
      rcases hWrite p hEffect with ⟨hLt, hNone⟩
      have hEq := hInv.size j hj
      have hOut := hNone j (by omega)
      simp [hj] at hOut

/- A move of a task that shrinks the group in time. -/
theorem failInv_move
    {cfg : Group ρ}
    {s s' : State ρ}
    {k : Nat}
    {act : Act}
    {move : Move ρ}
    (hUnspawned : Unspawned s)
    (hSignal : SignalInv s)
    (hInv : FailInv s)
    (hOk : ShrinksInTime cfg s (.task k, act))
    (hMove : TaskMove cfg k s.partialSize (s.pc k) act move)
    (hPc : s'.pc =
      Function.update (pcAfter s.pc k move.2.1) k move.1)
    (hSize : s'.partialSize =
      sizeAfter s.partialSize move.2.1)
    (hLog : s'.log = s.log ++ move.2.2) :
    FailInv s' := by
  rcases pcMoved_of_move hUnspawned hMove hPc with
    ⟨hSelf, hOther⟩
  have hOld :
      ∀ {e : Event ρ}, e ∈ s.log → e ∈ s'.log := by
    intro e he
    rw [hLog]
    exact List.mem_append_left _ he
  rcases size_of_move hInv hOk hMove hSize with
    ⟨hLe, hStill⟩
  refine ⟨?_, ?_, ?_, ?_, ?_, ?_, ?_, ?_⟩
  · intro j hj
    by_cases hEq : j = k
    · subst hEq
      rw [hSelf] at hj
      rcases hMove.window hj with hIn | ⟨hLast, hQuiet⟩
      · rw [hStill j hIn]
        exact hInv.size j hIn
      · rw [hSize, hQuiet]
        exact hLast
    · rw [hOther window rfl j hEq] at hj
      rw [hStill j hj]
      exact hInv.size j hj
  · intro j hj i hi
    apply hOld
    by_cases hEq : j = k
    · subst hEq
      rw [hSelf] at hj
      rcases hMove.atCommit hj with hAt | ⟨n, hWait, hOver⟩
      · exact hInv.ready j hAt i hi
      · have hPoint := hSignal.point j
        have hLast := hInv.size j (by rw [hWait]; rfl)
        rw [hWait] at hPoint
        exact hPoint i (by omega)
    · rw [hOther atCommit rfl j hEq] at hj
      exact hInv.ready j hj i hi
  · intro i hi hFailed
    rw [hLog, failed_append] at hFailed
    by_cases hEq : i = k
    · subst hEq
      rw [hSelf, hSize]
      rcases hFailed with hFailed | hFailed
      · exact hMove.failing hi (hInv.failing i hi hFailed)
      · exact (hMove.fails hFailed).2.2.2
    · rw [hOther (Cbop.failing s'.partialSize i) rfl i hEq]
      rcases hFailed with hFailed | hFailed
      · exact failing_mono hLe (hInv.failing i hi hFailed)
      · exact absurd (hMove.fails hFailed).1 hEq
  · intro i hi hMem
    rw [hLog, List.mem_append] at hMem
    by_cases hEq : i = k
    · subst hEq
      rw [hSelf] at hi
      rcases hMove.unsignalled hi with ⟨hBefore, hNone⟩
      rcases hMem with hMem | hMem
      · exact hInv.unsignalled i hBefore hMem
      · exact hNone i hMem
    · rw [hOther Cbop.unsignalled rfl i hEq] at hi
      rcases hMem with hMem | hMem
      · exact hInv.unsignalled i hi hMem
      · exact hEq (hMove.signals_shrunk hMem).1
  · intro i hi hFailed hMem
    rw [hLog, failed_append] at hFailed
    rw [hLog, List.mem_append] at hMem
    rcases hMem with hMem | hMem
    · rcases hFailed with hFailed | hFailed
      · exact Nat.le_trans hLe (hInv.shrunk i hi hFailed hMem)
      · rcases hMove.fails hFailed with ⟨rfl, hBefore, -⟩
        exact absurd hMem (hInv.unsignalled i hBefore)
    · rcases hMove.signals_shrunk hMem with
        ⟨rfl, hSame, hNone, hShrunk⟩
      rcases hFailed with hFailed | hFailed
      · rw [hSize, hSame]
        exact hShrunk (hInv.failing i hi hFailed)
      · exact absurd hFailed (hNone i)
  · intro j hj
    rw [hLog, List.mem_append] at hj
    by_cases hEq : j = k
    · subst hEq
      rw [hSelf]
      rcases hj with hj | hj
      · exact hMove.pastCommit (hInv.past j hj)
      · exact (hMove.commits hj).2.2
    · rw [hOther pastCommit rfl j hEq]
      rcases hj with hj | hj
      · exact hInv.past j hj
      · exact absurd (hMove.commits hj).1 hEq
  · intro j hj i hi
    apply hOld
    rw [hLog, List.mem_append] at hj
    rcases hj with hj | hj
    · exact hInv.behind j hj i hi
    · rcases hMove.commits hj with ⟨rfl, hAt, -⟩
      exact hInv.ready j (by rw [hAt]; rfl) i hi
  · intro j hj i hi hLeJ hFailed
    rw [hLog, List.mem_append] at hj
    rw [hLog, failed_append] at hFailed
    rcases hFailed with hFailed | hFailed
    · rcases hj with hj | hj
      · exact hInv.clean j hj i hi hLeJ hFailed
      · rcases hMove.commits hj with ⟨rfl, hAt, -⟩
        exact clean_of_commit hInv hAt hi hLeJ hFailed
    · rcases hMove.fails hFailed with
        ⟨rfl, hBefore, hNotPast, -⟩
      rcases hj with hj | hj
      · by_cases hEq : i = j
        · rw [hEq, hInv.past j hj] at hNotPast
          cases hNotPast
        · have hSignalled := hInv.behind j hj i (by omega)
          exact hInv.unsignalled i hBefore hSignalled
      · rcases hMove.commits hj with ⟨-, hAt, -⟩
        simp [hAt, unsignalled] at hBefore

/- A task that a signal ends. -/
theorem failInv_ended
    {s s' : State ρ}
    {k : Nat}
    {why : Why}
    (hInv : FailInv s)
    (hPc : s'.pc = Function.update s.pc k (.exited why))
    (hSize : s'.partialSize = s.partialSize)
    (hLog : s'.log = s.log) :
    FailInv s' := by
  have hOff := view_of_ended hPc
  have hOn := view_ended hPc
  refine ⟨?_, ?_, ?_, ?_, ?_, ?_, ?_, ?_⟩
  · intro j hj
    rw [hSize]
    exact hInv.size j (hOff window rfl j hj)
  · intro j hj
    rw [hLog]
    exact hInv.ready j (hOff atCommit rfl j hj)
  · intro i hi hFailed
    rw [hLog] at hFailed
    rw [hSize]
    exact hOn _ rfl i (hInv.failing i hi hFailed)
  · intro i hi
    rw [hLog]
    exact hInv.unsignalled i (hOff unsignalled rfl i hi)
  · rw [hLog, hSize]
    exact hInv.shrunk
  · intro j hj
    rw [hLog] at hj
    exact hOn pastCommit rfl j (hInv.past j hj)
  · rw [hLog]
    exact hInv.behind
  · rw [hLog]
    exact hInv.clean

theorem failInv_step
    {cfg : Group ρ}
    {s s' : State ρ}
    {label : Proc × Act}
    (hUnspawned : Unspawned s)
    (hSignal : SignalInv s)
    (hInv : FailInv s)
    (hOk : ShrinksInTime cfg s label)
    (h : step cfg s label = some s') :
    FailInv s' := by
  cases coreStep_of_step h with
  | moved k act move hLabel hMove hFree hPc hHeld hSize
      hLog =>
      subst hLabel
      exact failInv_move hUnspawned hSignal hInv hOk hMove
        hPc hSize hLog
  | ended k why hLabel hAlive hPc hHeld hSize hLog =>
      exact failInv_ended hInv hPc hSize hLog
  | aside hLabel hPc hHeld hSize hLog =>
      have hMem :
          ∀ e : Event ρ, e ≠ .becameSeq .undy →
            (e ∈ s'.log ↔ e ∈ s.log) :=
        fun e => mem_log_of_aside hLog
      have hFailed :
          ∀ k, Failed s'.log k ↔ Failed s.log k := by
        intro k
        simp [Failed, hMem]
      refine ⟨?_, ?_, ?_, ?_, ?_, ?_, ?_, ?_⟩
      · rw [hPc, hSize]
        exact hInv.size
      · intro j hj i hi
        rw [hPc] at hj
        rw [hMem _ (by simp)]
        exact hInv.ready j hj i hi
      · intro i hi hF
        rw [hPc, hSize]
        exact hInv.failing i hi ((hFailed i).mp hF)
      · intro i hi
        rw [hPc] at hi
        rw [hMem _ (by simp)]
        exact hInv.unsignalled i hi
      · intro i hi hF hM
        rw [hMem _ (by simp)] at hM
        rw [hSize]
        exact hInv.shrunk i hi ((hFailed i).mp hF) hM
      · intro j hj
        rw [hMem _ (by simp)] at hj
        rw [hPc]
        exact hInv.past j hj
      · intro j hj i hi
        rw [hMem _ (by simp)] at hj ⊢
        exact hInv.behind j hj i hi
      · intro j hj i hi hLe hF
        rw [hMem _ (by simp)] at hj
        exact hInv.clean j hj i hi hLe ((hFailed i).mp hF)

theorem failInv_of_reachable
    {cfg : Group ρ}
    {s : State ρ}
    (h : (protocol cfg).Reachable (ShrinksInTime cfg) s) :
    FailInv s := by
  apply h.invariant FailInv
  · change FailInv (State.init cfg)
    have hPc :
        ∀ k, window ((State.init cfg).pc k) = false ∧
          atCommit ((State.init cfg).pc k) = false := by
      intro k
      by_cases hk : k = 0 <;>
        simp [State.init, hk, window, atCommit]
    refine ⟨?_, ?_, ?_, ?_, ?_, ?_, ?_, ?_⟩
    · intro j hj
      rw [(hPc j).1] at hj
      cases hj
    · intro j hj
      rw [(hPc j).2] at hj
      cases hj
    · simp [State.init, Failed]
    · simp [State.init]
    · simp [State.init]
    · simp [State.init]
    · simp [State.init]
    · simp [State.init]
  · intro s label s' hReach hInv hOk hStep
    exact failInv_step (unspawned_of_reachable hReach)
      (signalInv_of_reachable hReach) hInv hOk hStep

/-
  In every run whose writes of the size all shrink it in
  time: if the check of a speculative task fails, or the
  task aborts, then no task from it on commits the group.
-/
theorem failed_never_commits
    (cfg : Group ρ)
    {s : State ρ}
    (h : (protocol cfg).Reachable (ShrinksInTime cfg) s)
    {k j : Nat}
    (hk : 1 ≤ k)
    (hFailed : Failed s.log k)
    (hj : k ≤ j) :
    Event.groupCommitted j ∉ s.log := by
  intro hCommitted
  have hInv := failInv_of_reachable h
  exact hInv.clean j hCommitted k (by omega) hj hFailed

/- A group of three tasks that write nothing. -/
def triple : Group Unit where
  size := 3
  writes := fun _ => []
  atomicSet := false
  mainLeads := true

/- MAIN passes its check, and the check of task 1 fails. -/
def untilSecondFails : List (Proc × Act) :=
  [(.task 0, .go), (.task 1, .go)] ++
    List.replicate 6 (.task 0, .go) ++
    List.replicate 4 (.task 1, .go) ++
    [(.task 1, .fail), (.task 1, .go)]

/- The step does not write the size of the group. -/
def sizeUnwritten
    (s : State Unit)
    (label : Proc × Act) : Bool :=
  match label.1 with
  | .task k => nextSize triple s.partialSize (s.pc k) = none
  | .undy => true

/- Task 1 has failed and called `BOP_abort_spec`. -/
theorem failed_never_commits_second :
    ∃ s, (protocol triple).Reachable
        (ShrinksInTime triple) s ∧
      Failed s.log 1 ∧
      ∀ j, 1 ≤ j → Event.groupCommitted j ∉ s.log := by
  have hRun := Machine.exists_reachable_of_run
    (protocol triple) (ShrinksInTime triple)
    sizeUnwritten
    (by
      intro s label hTest k p hLabel hNext
      simp [sizeUnwritten, hLabel, hNext] at hTest)
    untilSecondFails
    (fun s => Event.aborted 1 ∈ s.log)
    (by decide)
  rcases hRun with ⟨s, hReach, hAborted⟩
  simp only [decide_eq_true_eq] at hAborted
  refine ⟨s, hReach, .inl hAborted, ?_⟩
  intro j hj
  exact failed_never_commits triple hReach (by decide)
    (.inl hAborted) hj

/-
  Task 2 tests the size between the failure of task 1 and
  its write of the size, then waits for the tasks of the
  shrunken group only, and commits.
-/
theorem failed_task_commits :
    ¬∀ s, (protocol triple).Reachable Machine.anyStep s →
      ∀ k j, 1 ≤ k → Failed s.log k → k ≤ j →
        Event.groupCommitted j ∉ s.log := by
  intro hAll
  have hRun := Machine.exists_reachable_of_run
    (protocol triple) Machine.anyStep (fun _ _ => true)
    (fun _ _ _ => trivial)
    (untilSecondFails ++
      List.replicate 10 (.task 2, .go) ++
      List.replicate 3 (.task 1, .go) ++
      List.replicate 2 (.task 2, .go))
    (fun s => Event.checkEnded 1 false ∈ s.log ∧
      Event.groupCommitted 2 ∈ s.log)
    (by decide)
  rcases hRun with ⟨s, hReach, hBoth⟩
  simp only [decide_eq_true_eq] at hBoth
  exact hAll s hReach 1 2 (by decide) (.inr hBoth.1)
    (by decide) hBoth.2

end Cbop
