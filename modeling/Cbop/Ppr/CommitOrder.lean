import Cbop.Ppr.FailedSpeculation

/-
  Commit order when the group shrinks only from inside of
  regions.

  A task that shrinks the group from its region has not
  started its check. Checks start in task order, so it comes
  after every task that passed the test for the last one:
  the size such a task saw stays as it is.

  Main declarations:
    * `RegionAborts`, `OrderInv`
    * `shrinksInTime_of_regionAborts`
    * `commit_order`
-/

namespace Cbop

variable {ρ : Type}

------------------------------------------------------------
-- Aborts from Regions
------------------------------------------------------------

/-
  Checks pass, and `BOP_abort_spec` is called by the code of
  the program only.
-/
def RegionAborts
    (s : State ρ)
    (label : Proc × Act) : Prop :=
  label.2 ≠ .fail ∧
    ∀ k, label = (.task k, .abort) →
      userCode k (s.pc k) = true

/- The task's check did not fail. -/
def unfailed : Pc ρ → Bool
| .checked false => false
| .setSize _ next => unfailed next
| .setAcquire _ next => unfailed next
| .setWrite _ next => unfailed next
| .setRelease next => unfailed next
| _ => true

/- The task is not about to set the size. -/
def steady : Pc ρ → Bool
| .setSize _ _ => false
| .setAcquire _ _ => false
| .setWrite _ _ => false
| .setRelease _ => false
| .abortSignal => false
| _ => true

/- Task `k` sets the size in one step, to `k` or more. -/
def ownSize (k : Nat) : Pc ρ → Bool
| .setSize p next => k ≤ p && ownSize k next
| .setAcquire _ _ => false
| .setWrite _ _ => false
| .setRelease _ => false
| _ => true

/- The task passed its check and is committing. -/
def late : Pc ρ → Bool
| .commitTest => true
| .dataCommit => true
| .signalCommit => true
| .waitNext => true
| .waitNextRelease => true
| .lastTest => true
| .setSize _ next => late next
| .setAcquire _ next => late next
| .setWrite _ next => late next
| .setRelease next => late next
| pc => window pc

theorem late_of_window
    {pc : Pc ρ}
    (h : window pc = true) :
    late pc = true := by
  induction pc <;> simp_all [window, late]

------------------------------------------------------------
-- Moves
------------------------------------------------------------

theorem TaskMove.unfailed
    {cfg : Group ρ}
    {k psize : Nat}
    {pc : Pc ρ}
    {act : Act}
    {move : Move ρ}
    (h : TaskMove cfg k psize pc act move)
    (hAct : act ≠ .fail)
    (hPc : Cbop.unfailed pc = true) :
    Cbop.unfailed move.1 = true := by
  cases h <;> simp_all [Cbop.unfailed]

/- A task past its region does not set the size. -/
theorem TaskMove.steady
    {cfg : Group ρ}
    {k psize : Nat}
    {pc : Pc ρ}
    {act : Act}
    {move : Move ρ}
    (h : TaskMove cfg k psize pc act move)
    (hAbort : act = .abort → userCode k pc = true)
    (hUnfailed : Cbop.unfailed pc = true)
    (hSteady : Cbop.steady pc = true) :
    Cbop.steady move.1 = true ∨ phase pc = .before := by
  have hUser : userCode k pc = true → phase pc = .before := by
    intro hUser
    cases pc <;> simp_all [userCode, phase]
  cases h
  case outside => exact .inr rfl
  case mainAbort => exact .inr (hUser (hAbort rfl))
  case specAbort => exact .inr (hUser (hAbort rfl))
  case abortNext => exact .inr (hUser ‹_›)
  all_goals simp_all [Cbop.steady, Cbop.unfailed]

theorem TaskMove.starts_steady
    {cfg : Group ρ}
    {k psize i : Nat}
    {pc : Pc ρ}
    {act : Act}
    {move : Move ρ}
    (h : TaskMove cfg k psize pc act move)
    (hStart : i ∈ starts move.2.2) :
    i = k ∧ Cbop.steady move.1 = true := by
  cases h <;> simp_all [starts, Cbop.steady]

theorem TaskMove.ownSize
    {cfg : Group ρ}
    {k psize : Nat}
    {pc : Pc ρ}
    {act : Act}
    {move : Move ρ}
    (h : TaskMove cfg k psize pc act move)
    (hAtomic : cfg.atomicSet = true)
    (hOwn : Cbop.ownSize k pc = true) :
    Cbop.ownSize k move.1 = true := by
  cases h <;> simp_all [Cbop.ownSize]

theorem TaskMove.late
    {cfg : Group ρ}
    {k psize : Nat}
    {pc : Pc ρ}
    {act : Act}
    {move : Move ρ}
    (h : TaskMove cfg k psize pc act move)
    (hLate : Cbop.late move.1 = true) :
    Cbop.late pc = true ∨ (phase pc).busy = true := by
  cases h
  case passed => exact .inr rfl
  all_goals simp_all [Cbop.late, Cbop.window]

------------------------------------------------------------
-- The Invariant
------------------------------------------------------------

structure OrderInv (s : State ρ) : Prop where
  unfailed : ∀ k, Cbop.unfailed (s.pc k) = true
  quiet : ∀ k, k ∈ starts s.log →
    Cbop.steady (s.pc k) = true
  own : ∀ k, ownSize k (s.pc k) = true
  late : ∀ k, Cbop.late (s.pc k) = true →
    k ∈ starts s.log
  committed : ∀ k, Event.groupCommitted k ∈ s.log →
    k ∈ starts s.log ∧ s.partialSize = k + 1

/- A task that writes the size has not started its check. -/
theorem writer_unstarted
    {cfg : Group ρ}
    {s : State ρ}
    {k p : Nat}
    (hInv : OrderInv s)
    (hNext : nextSize cfg s.partialSize (s.pc k) = some p) :
    p < s.partialSize ∧ k ≤ p ∧ k ∉ starts s.log := by
  have hOwn := hInv.own k
  have hQuiet := hInv.quiet k
  unfold nextSize at hNext
  split at hNext
  · rename_i q next hPc
    simp only [Option.ite_none_right_eq_some,
      Option.some.injEq] at hNext
    rcases hNext with ⟨⟨-, hLt⟩, rfl⟩
    rw [hPc] at hOwn hQuiet
    simp only [ownSize, Bool.and_eq_true,
      decide_eq_true_eq] at hOwn
    refine ⟨hLt, hOwn.1, ?_⟩
    intro hStarted
    simp [steady] at hQuiet
    exact hQuiet hStarted
  · rename_i q next hPc
    rw [hPc] at hOwn
    simp [ownSize] at hOwn
  · cases hNext

/- A task that started comes before the new size. -/
theorem started_below_size
    {cfg : Group ρ}
    {s : State ρ}
    {b : Baton}
    {k p j : Nat}
    (hCheck : CheckInv cfg s.relay b)
    (hInv : OrderInv s)
    (hNext : nextSize cfg s.partialSize (s.pc k) = some p)
    (hStarted : j ∈ starts s.log) :
    j < p := by
  have hStarts : starts s.log = List.range b.count :=
    hCheck.starts_eq
  rcases writer_unstarted hInv hNext with ⟨-, hLe, hNot⟩
  rw [hStarts, List.mem_range] at hStarted hNot
  omega

/- Aborts from regions shrink the group in time. -/
theorem shrinksInTime_of_regionAborts
    {cfg : Group ρ}
    {s : State ρ}
    {b : Baton}
    {label : Proc × Act}
    (hCheck : CheckInv cfg s.relay b)
    (hInv : OrderInv s) :
    ShrinksInTime cfg s label := by
  intro k p _ hNext
  refine ⟨(writer_unstarted hInv hNext).1, ?_⟩
  intro j hj
  by_contra hWindow
  have hStarted := hInv.late j
    (late_of_window (by simpa using hWindow))
  have hBelow :=
    started_below_size hCheck hInv hNext hStarted
  omega

theorem orderInv_move
    {cfg : Group ρ}
    {s s' : State ρ}
    {b : Baton}
    {k : Nat}
    {act : Act}
    {move : Move ρ}
    (hAtomic : cfg.atomicSet = true)
    (hUnspawned : Unspawned s)
    (hCheck : CheckInv cfg s.relay b)
    (hFail : FailInv s)
    (hInv : OrderInv s)
    (hOk : RegionAborts s (.task k, act))
    (hMove : TaskMove cfg k s.partialSize (s.pc k) act move)
    (hPc : s'.pc =
      Function.update (pcAfter s.pc k move.2.1) k move.1)
    (hSize : s'.partialSize =
      sizeAfter s.partialSize move.2.1)
    (hLog : s'.log = s.log ++ move.2.2) :
    OrderInv s' := by
  rcases pcMoved_of_move hUnspawned hMove hPc with
    ⟨hSelf, hOther⟩
  have hStarts : starts s.log = List.range b.count :=
    hCheck.starts_eq
  have hOld :
      ∀ j, j ∈ starts s.log → j ∈ starts s'.log := by
    intro j hj
    rw [hLog, starts_append]
    exact List.mem_append_left _ hj
  -- nobody shrinks the group below a task that started
  have hStill :
      ∀ j, j ∈ starts s.log → s.partialSize = j + 1 →
        s'.partialSize = j + 1 := by
    intro j hj hEq
    rw [hSize]
    cases hEffect : move.2.1 with
    | writeSize p =>
        rcases hMove.writes hEffect with ⟨-, hNext⟩
        have hLt := (writer_unstarted hInv hNext).1
        have hBelow :=
          started_below_size hCheck hInv hNext hj
        omega
    | _ => exact hEq
  refine ⟨?_, ?_, ?_, ?_, ?_⟩
  · intro j
    by_cases hEq : j = k
    · subst hEq
      rw [hSelf]
      exact hMove.unfailed hOk.1 (hInv.unfailed j)
    · rw [hOther Cbop.unfailed rfl j hEq]
      exact hInv.unfailed j
  · intro j hj
    rw [hLog, starts_append, List.mem_append] at hj
    by_cases hEq : j = k
    · subst hEq
      rw [hSelf]
      rcases hj with hj | hj
      · have hAbort : act = .abort →
            userCode j (s.pc j) = true := by
          intro hCase
          subst hCase
          exact hOk.2 j rfl
        rcases hMove.steady hAbort (hInv.unfailed j)
          (hInv.quiet j hj) with hSteady | hBefore
        · exact hSteady
        · have hLe := hCheck.before j hBefore
          rw [hStarts, List.mem_range] at hj
          omega
      · exact (hMove.starts_steady hj).2
    · rw [hOther Cbop.steady rfl j hEq]
      rcases hj with hj | hj
      · exact hInv.quiet j hj
      · exact absurd (hMove.starts_steady hj).1 hEq
  · intro j
    by_cases hEq : j = k
    · subst hEq
      rw [hSelf]
      exact hMove.ownSize hAtomic (hInv.own j)
    · rw [hOther (ownSize j) rfl j hEq]
      exact hInv.own j
  · intro j hj
    apply hOld j
    by_cases hEq : j = k
    · subst hEq
      rw [hSelf] at hj
      rcases hMove.late hj with hLate | hBusy
      · exact hInv.late j hLate
      · have hB := hCheck.busy j hBusy
        rw [hStarts, hB, List.mem_range]
        exact Nat.lt_succ_self j
    · rw [hOther Cbop.late rfl j hEq] at hj
      exact hInv.late j hj
  · intro j hj
    rw [hLog, List.mem_append] at hj
    rcases hj with hj | hj
    · rcases hInv.committed j hj with ⟨hStarted, hEq⟩
      exact ⟨hOld j hStarted, hStill j hStarted hEq⟩
    · rcases hMove.commits hj with ⟨rfl, hAt, -⟩
      have hWindow : window (s.pc j) = true := by
        rw [hAt]
        rfl
      have hStarted :=
        hInv.late j (late_of_window hWindow)
      exact ⟨hOld j hStarted,
        hStill j hStarted (hFail.size j hWindow)⟩

theorem orderInv_step
    {cfg : Group ρ}
    {s s' : State ρ}
    {b : Baton}
    {label : Proc × Act}
    (hAtomic : cfg.atomicSet = true)
    (hUnspawned : Unspawned s)
    (hCheck : CheckInv cfg s.relay b)
    (hFail : FailInv s)
    (hInv : OrderInv s)
    (hOk : RegionAborts s label)
    (h : step cfg s label = some s') :
    OrderInv s' := by
  cases coreStep_of_step h with
  | moved k act move hLabel hMove hFree hPc hHeld hSize
      hLog =>
      subst hLabel
      exact orderInv_move hAtomic hUnspawned hCheck hFail
        hInv hOk hMove hPc hSize hLog
  | ended k why hLabel hAlive hPc hHeld hSize hLog =>
      refine ⟨?_, ?_, ?_, ?_, ?_⟩
      · intro j
        exact view_ended hPc Cbop.unfailed rfl j
          (hInv.unfailed j)
      · intro j hj
        rw [hLog] at hj
        exact view_ended hPc Cbop.steady rfl j
          (hInv.quiet j hj)
      · intro j
        exact view_ended hPc (ownSize j) rfl j (hInv.own j)
      · intro j hj
        rw [hLog]
        exact hInv.late j
          (view_of_ended hPc Cbop.late rfl j hj)
      · rw [hLog, hSize]
        exact hInv.committed
  | aside hLabel hPc hHeld hSize hLog =>
      have hStarts : starts s'.log = starts s.log := by
        rcases hLog with hLog | hLog
        · rw [hLog]
        · rw [hLog, starts_append]
          simp [starts]
      have hMem :
          ∀ j, Event.groupCommitted j ∈ s'.log →
            Event.groupCommitted j ∈ s.log := by
        intro j hj
        exact (mem_log_of_aside hLog (by simp)).mp hj
      refine ⟨?_, ?_, ?_, ?_, ?_⟩
      · rw [hPc]
        exact hInv.unfailed
      · rw [hPc, hStarts]
        exact hInv.quiet
      · rw [hPc]
        exact hInv.own
      · rw [hPc, hStarts]
        exact hInv.late
      · intro j hj
        rw [hStarts, hSize]
        exact hInv.committed j (hMem j hj)

/-
  A run with aborts from regions only is one in which the
  group shrinks in time.
-/
theorem orderInv_of_reachable
    {cfg : Group ρ}
    {s : State ρ}
    (hAtomic : cfg.atomicSet = true)
    (h : (protocol cfg).Reachable RegionAborts s) :
    OrderInv s ∧
      (protocol cfg).Reachable (ShrinksInTime cfg) s := by
  refine h.invariant (fun s => OrderInv s ∧
    (protocol cfg).Reachable (ShrinksInTime cfg) s) ?_ ?_
  · refine ⟨?_, .start⟩
    change OrderInv (State.init cfg)
    have hPc :
        ∀ k, (State.init cfg).pc k = .gap ∨
          (State.init cfg).pc k = .unborn := by
      intro k
      by_cases hk : k = 0 <;> simp [State.init, hk]
    refine ⟨?_, ?_, ?_, ?_, ?_⟩
    · intro k
      rcases hPc k with hEq | hEq <;> rw [hEq] <;> rfl
    · simp [State.init, starts]
    · intro k
      rcases hPc k with hEq | hEq <;> rw [hEq] <;> rfl
    · intro k hk
      rcases hPc k with hEq | hEq <;>
        simp [hEq, late, window] at hk
    · simp [State.init]
  · intro s label s' hReach hCase
    rcases hCase with ⟨hInv, hShrinks⟩
    intro hOk hStep
    rcases checkInv_of_reachable hReach with ⟨b, hCheck⟩
    constructor
    · exact orderInv_step hAtomic
        (unspawned_of_reachable hReach) hCheck
        (failInv_of_reachable hShrinks) hInv hOk hStep
    · exact .step hShrinks
        (shrinksInTime_of_regionAborts hCheck hInv) hStep

------------------------------------------------------------
-- Commit Order
------------------------------------------------------------

/- The tasks before a committing one committed their data. -/
theorem dataCommitted_of_signalled
    {s : State ρ}
    {k j : Nat}
    (hSignal : SignalInv s)
    (hFail : FailInv s)
    (hOrder : OrderInv s)
    (hSize : s.partialSize = j + 1)
    (hLt : k < j)
    (hSignalled : Event.signalled k ∈ s.log) :
    Event.dataCommitted k ∈ s.log := by
  rcases hSignal.cause k hSignalled with hData | hGroup | hAborted
  · exact hData
  · have hEq := (hOrder.committed k hGroup).2
    omega
  · have hk : k ≠ 0 := by
      intro hCase
      subst hCase
      exact hSignal.main hAborted
    have hShrunk :=
      hFail.shrunk k hk (.inl hAborted) hSignalled
    omega

/-
  In every run with aborts from regions only: a task that
  starts the group commit is the last one of the group, then
  and ever after, and every earlier task has committed its
  data.
-/
theorem commit_order
    (cfg : Group ρ)
    (hAtomic : cfg.atomicSet = true)
    {s : State ρ}
    (h : (protocol cfg).Reachable RegionAborts s)
    {j : Nat}
    (hCommit : s.pc j = .groupCommit ∨
      Event.groupCommitted j ∈ s.log) :
    s.partialSize = j + 1 ∧
      ∀ k, k < j → Event.dataCommitted k ∈ s.log := by
  rcases orderInv_of_reachable hAtomic h with
    ⟨hOrder, hShrinks⟩
  have hFail := failInv_of_reachable hShrinks
  have hSignal := signalInv_of_reachable h
  rcases hCommit with hPc | hCommitted
  · have hSize := hFail.size j (by rw [hPc]; rfl)
    refine ⟨hSize, ?_⟩
    intro k hk
    have hSignalled := hFail.ready j (by rw [hPc]; rfl) k hk
    exact dataCommitted_of_signalled hSignal hFail hOrder
      hSize hk hSignalled
  · have hSize := (hOrder.committed j hCommitted).2
    refine ⟨hSize, ?_⟩
    intro k hk
    have hSignalled := hFail.behind j hCommitted k hk
    exact dataCommitted_of_signalled hSignal hFail hOrder
      hSize hk hSignalled

/- Three tasks, with the size set in one step. -/
def atomicTriple : Group Unit :=
  { triple with atomicSet := true }

/-
  Task 1 calls `BOP_abort_next_spec` in its region and
  commits the group of MAIN and itself.
-/
theorem commit_order_shrunk :
    ∃ s, (protocol atomicTriple).Reachable RegionAborts s ∧
      Event.groupCommitted 1 ∈ s.log ∧
      s.partialSize = 2 ∧
      Event.dataCommitted 0 ∈ s.log := by
  have hRun := Machine.exists_reachable_of_run
    (protocol atomicTriple) RegionAborts
    (fun _ label => label.2 ≠ .fail ∧ label.2 ≠ .abort)
    (by
      intro s label hTest
      simp only [decide_eq_true_eq] at hTest
      refine ⟨hTest.1, ?_⟩
      intro k hEq
      subst hEq
      exact absurd rfl hTest.2)
    ([(.task 0, .go), (.task 1, .go),
        (.task 1, .abortNext), (.task 1, .go)] ++
      List.replicate 9 (.task 0, .go) ++
      List.replicate 13 (.task 1, .go))
    (fun s => Event.groupCommitted 1 ∈ s.log)
    (by decide)
  rcases hRun with ⟨s, hReach, hCommitted⟩
  simp only [decide_eq_true_eq] at hCommitted
  have hOrder := commit_order atomicTriple rfl hReach
    (.inr hCommitted)
  exact ⟨s, hReach, hCommitted, hOrder.1,
    hOrder.2 0 (by decide)⟩

end Cbop
