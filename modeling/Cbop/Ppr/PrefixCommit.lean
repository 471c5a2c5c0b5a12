import Cbop.Ppr.NoAborts

/-
  What the task that commits a group knows of the others.

  Checks may fail and tasks may abort or die. As long as the
  size shrinks in time, the group that is committed is a
  prefix of the tasks: all of them passed their check, all
  but the last have committed their data, and no other task
  ever commits the group.

  Main declarations:
    * `views_of_coreStep`
    * `BirthInv`, `birthInv_of_reachable`
    * `shrinksTest`, `shrinksInTime_of_test`
    * `ProceedInv`, `proceedInv_of_reachable`
    * `PrefixInv`, `prefixInv_of_reachable`
    * `group_commit_prefix`
-/

namespace Cbop

variable {ρ : Type}

------------------------------------------------------------
-- Views of Every Task
------------------------------------------------------------

/-
  A view that every task has, that gone tasks have and that
  moves keep, every task has after a step.
-/
theorem views_of_coreStep
    {cfg : Group ρ}
    {s s' : State ρ}
    {label : Proc × Act}
    (view : Nat → Pc ρ → Bool)
    (hGap : ∀ k, view k .gap = view k .unborn)
    (hGone : ∀ k why, view k (.exited why) = true)
    (hUnspawned : Unspawned s)
    (hStep : CoreStep cfg s label s')
    (hMoves : ∀ k act move, label = (.task k, act) →
      TaskMove cfg k s.partialSize (s.pc k) act move →
        view k (s.pc k) = true → view k move.1 = true)
    (hAll : ∀ k, view k (s.pc k) = true) :
    ∀ k, view k (s'.pc k) = true := by
  intro j
  cases hStep with
  | moved k act move hLabel hMove hFree hPc hHeld hSize
      hLog =>
      rcases pcMoved_of_move hUnspawned hMove hPc with
        ⟨hSelf, hOther⟩
      by_cases hEq : j = k
      · rw [hEq, hSelf]
        exact hMoves k act move hLabel hMove (hAll k)
      · rw [hOther (view j) (hGap j) j hEq]
        exact hAll j
  | ended k why hLabel hAlive hPc hHeld hSize hLog =>
      exact view_ended hPc (view j) (hGone j why) j (hAll j)
  | aside hLabel hPc hHeld hSize hLog =>
      rw [hPc]
      exact hAll j

------------------------------------------------------------
-- Sizes and Births
------------------------------------------------------------

/- The sizes the task has found smaller are at most `n`. -/
def writesUpTo (n : Nat) : Pc ρ → Bool
| .setSize _ next => writesUpTo n next
| .setAcquire p next => p ≤ n && writesUpTo n next
| .setWrite p next => p ≤ n && writesUpTo n next
| .setRelease next => writesUpTo n next
| _ => true

theorem TaskMove.writesUpTo
    {cfg : Group ρ}
    {k psize n : Nat}
    {pc : Pc ρ}
    {act : Act}
    {move : Move ρ}
    (h : TaskMove cfg k psize pc act move)
    (hSize : psize ≤ n)
    (hWrites : Cbop.writesUpTo n pc = true) :
    Cbop.writesUpTo n move.1 = true ∧
      sizeAfter psize move.2.1 ≤ n := by
  cases h <;> simp_all [Cbop.writesUpTo, sizeAfter] <;> omega

/- The size and the tasks of a group stay within its size. -/
structure BirthInv (cfg : Group ρ) (s : State ρ) : Prop where
  size : s.partialSize ≤ cfg.size
  writes : ∀ k, writesUpTo cfg.size (s.pc k) = true
  born : ∀ k, s.pc k ≠ .unborn → k = 0 ∨ k < cfg.size

/- A task that exists after a step did so before, or is new. -/
theorem born_of_coreStep
    {cfg : Group ρ}
    {s s' : State ρ}
    {label : Proc × Act}
    (hStep : CoreStep cfg s label s')
    {j : Nat}
    (hBorn : s'.pc j ≠ .unborn) :
    s.pc j ≠ .unborn ∨ j < s.partialSize := by
  cases hStep with
  | moved k act move hLabel hMove hFree hPc hHeld hSize
      hLog =>
      by_cases hSelf : j = k
      · exact .inl (hSelf ▸ hMove.ne_unborn)
      · rw [hPc, Function.update_of_ne hSelf] at hBorn
        by_cases hFork : move.2.1 = .fork
        · by_cases hChild : j = k + 1
          · have hLt := hMove.forks hFork
            exact .inr (by omega)
          · rw [pcAfter_of_ne _ _ hChild] at hBorn
            exact .inl hBorn
        · rw [pcAfter_of_quiet _ _ hFork] at hBorn
          exact .inl hBorn
  | ended k why hLabel hAlive hPc hHeld hSize hLog =>
      left
      intro hUnborn
      by_cases hSelf : j = k
      · rw [← hSelf, hUnborn] at hAlive
        cases hAlive
      · rw [hPc, Function.update_of_ne hSelf] at hBorn
        exact hBorn hUnborn
  | aside hLabel hPc hHeld hSize hLog =>
      rw [hPc] at hBorn
      exact .inl hBorn

theorem birthInv_of_reachable
    {cfg : Group ρ}
    {ok : State ρ → Proc × Act → Prop}
    {s : State ρ}
    (h : (protocol cfg).Reachable ok s) :
    BirthInv cfg s := by
  apply h.invariant (BirthInv cfg)
  · refine ⟨Nat.le_refl _, ?_, ?_⟩
    · intro k
      by_cases hk : k = 0 <;>
        simp [protocol, State.init, hk, writesUpTo]
    · intro k hk
      by_cases hMain : k = 0
      · exact .inl hMain
      · simp [protocol, State.init, hMain] at hk
  · intro s label s' hReach hInv _ hStep
    have hCore := coreStep_of_step hStep
    refine ⟨?_, ?_, ?_⟩
    · cases hCore with
      | moved k act move hLabel hMove hFree hPc hHeld hSize
          hLog =>
          rw [hSize]
          exact (hMove.writesUpTo hInv.size
            (hInv.writes k)).2
      | ended k why hLabel hAlive hPc hHeld hSize hLog =>
          rw [hSize]
          exact hInv.size
      | aside hLabel hPc hHeld hSize hLog =>
          rw [hSize]
          exact hInv.size
    · apply views_of_coreStep
        (fun _ => writesUpTo cfg.size) (fun _ => rfl)
        (fun _ _ => rfl) (unspawned_of_reachable hReach)
        hCore ?_ hInv.writes
      intro k act move _ hMove hWrites
      exact (hMove.writesUpTo hInv.size hWrites).1
    · intro k hk
      rcases born_of_coreStep hCore hk with hOld | hLt
      · exact hInv.born k hOld
      · exact .inr (Nat.lt_of_lt_of_le hLt hInv.size)

/- A test for `ShrinksInTime` among the tasks there are. -/
def shrinksTest
    (cfg : Group ρ)
    (s : State ρ)
    (label : Proc × Act) : Bool :=
  match label.1 with
  | .task k =>
      match nextSize cfg s.partialSize (s.pc k) with
      | some p =>
          p < s.partialSize && (List.range cfg.size).all
            (fun j => j < p || !window (s.pc j))
      | none => true
  | .undy => true

theorem shrinksInTime_of_test
    {cfg : Group ρ}
    {s : State ρ}
    {label : Proc × Act}
    (hSize : 1 ≤ cfg.size)
    (hInv : BirthInv cfg s)
    (h : shrinksTest cfg s label = true) :
    ShrinksInTime cfg s label := by
  intro k p hLabel hNext
  simp only [shrinksTest, hLabel, hNext, Bool.and_eq_true,
    decide_eq_true_eq, List.all_eq_true, List.mem_range,
    Bool.or_eq_true, Bool.not_eq_true'] at h
  refine ⟨h.1, ?_⟩
  intro j hj
  by_cases hLt : j < cfg.size
  · rcases h.2 j hLt with hBelow | hOut
    · omega
    · exact hOut
  · have hUnborn : s.pc j = .unborn := by
      by_contra hBorn
      have hCases := hInv.born j hBorn
      omega
    rw [hUnborn]
    rfl

------------------------------------------------------------
-- Tasks Past Their Check
------------------------------------------------------------

/- The task has passed its check and is still there. -/
def proceeded : Pc ρ → Bool
| .checked passed => passed
| .commitTest => true
| .dataCommit => true
| .signalCommit => true
| .waitNext => true
| .waitNextRelease => true
| .lastTest => true
| .waitGroup _ => true
| .waitGroupAcquire _ => true
| .groupCommit => true
| .groupSignal => true
| .waitUndyCreated => true
| .killUndy => true
| .waitUndyConceded => true
| .succFini => true
| .seq => true
| .setSize _ next => proceeded next
| .setAcquire _ next => proceeded next
| .setWrite _ next => proceeded next
| .setRelease next => proceeded next
| _ => false

theorem TaskMove.proceeded
    {cfg : Group ρ}
    {k psize : Nat}
    {pc : Pc ρ}
    {act : Act}
    {move : Move ρ}
    (h : TaskMove cfg k psize pc act move)
    (hProceeded : Cbop.proceeded move.1 = true) :
    Cbop.proceeded pc = true ∨
      Event.checkEnded k true ∈ move.2.2 := by
  cases h <;> simp_all [Cbop.proceeded]

/- Both commits are made past the check. -/
theorem TaskMove.commits_past
    {cfg : Group ρ}
    {k psize i : Nat}
    {pc : Pc ρ}
    {act : Act}
    {move : Move ρ}
    (h : TaskMove cfg k psize pc act move)
    (hCommit : Event.dataCommitted i ∈ move.2.2 ∨
      Event.groupCommitted i ∈ move.2.2) :
    i = k ∧ Cbop.proceeded pc = true := by
  cases h <;> simp_all [Cbop.proceeded]

/- The task has committed the group and is still there. -/
def committer : Pc ρ → Bool
| .groupSignal => true
| .waitUndyCreated => true
| .killUndy => true
| .waitUndyConceded => true
| .succFini => true
| .seq => true
| .setSize _ next => committer next
| .setAcquire _ next => committer next
| .setWrite _ next => committer next
| .setRelease next => committer next
| _ => false

theorem TaskMove.committer
    {cfg : Group ρ}
    {k psize : Nat}
    {pc : Pc ρ}
    {act : Act}
    {move : Move ρ}
    (h : TaskMove cfg k psize pc act move)
    (hCommitter : Cbop.committer move.1 = true) :
    Cbop.committer pc = true ∨
      Event.groupCommitted k ∈ move.2.2 := by
  cases h <;> simp_all [Cbop.committer]

/-
  Whoever is past its check, or was, has passed it; whoever
  is past the group commit has made it.
-/
structure ProceedInv (s : State ρ) : Prop where
  past : ∀ k, proceeded (s.pc k) = true →
    Event.checkEnded k true ∈ s.log
  committer : ∀ k, Cbop.committer (s.pc k) = true →
    Event.groupCommitted k ∈ s.log
  committed : ∀ k, Event.dataCommitted k ∈ s.log ∨
    Event.groupCommitted k ∈ s.log →
      Event.checkEnded k true ∈ s.log

/- A point that comes with an event of its own task. -/
theorem logged_of_move
    {cfg : Group ρ}
    {s s' : State ρ}
    {k : Nat}
    {act : Act}
    {move : Move ρ}
    (view : Pc ρ → Bool)
    (event : Nat → Event ρ)
    (hView : view .gap = view .unborn)
    (hUnspawned : Unspawned s)
    (hMove : TaskMove cfg k s.partialSize (s.pc k) act move)
    (hPc : s'.pc =
      Function.update (pcAfter s.pc k move.2.1) k move.1)
    (hLog : s'.log = s.log ++ move.2.2)
    (hNew : view move.1 = true →
      view (s.pc k) = true ∨ event k ∈ move.2.2)
    (hInv : ∀ j, view (s.pc j) = true → event j ∈ s.log) :
    ∀ j, view (s'.pc j) = true → event j ∈ s'.log := by
  rcases pcMoved_of_move hUnspawned hMove hPc with
    ⟨hSelf, hOther⟩
  intro j hj
  rw [hLog, List.mem_append]
  by_cases hEq : j = k
  · subst hEq
    rw [hSelf] at hj
    rcases hNew hj with hOld | hEvent
    · exact .inl (hInv j hOld)
    · exact .inr hEvent
  · rw [hOther view hView j hEq] at hj
    exact .inl (hInv j hj)

theorem proceedInv_step
    {cfg : Group ρ}
    {s s' : State ρ}
    {label : Proc × Act}
    (hUnspawned : Unspawned s)
    (hInv : ProceedInv s)
    (h : step cfg s label = some s') :
    ProceedInv s' := by
  cases coreStep_of_step h with
  | moved k act move hLabel hMove hFree hPc hHeld hSize
      hLog =>
      refine ⟨?_, ?_, ?_⟩
      · exact logged_of_move proceeded
          (fun j => .checkEnded j true) rfl hUnspawned hMove
          hPc hLog hMove.proceeded hInv.past
      · exact logged_of_move Cbop.committer .groupCommitted
          rfl hUnspawned hMove hPc hLog hMove.committer
          hInv.committer
      · intro j hj
        rw [hLog, List.mem_append]
        left
        simp only [hLog, List.mem_append] at hj
        by_cases hNew : Event.dataCommitted j ∈ move.2.2 ∨
            Event.groupCommitted j ∈ move.2.2
        · rcases hMove.commits_past hNew with ⟨rfl, hPast⟩
          exact hInv.past j hPast
        · apply hInv.committed j
          tauto
  | ended k why hLabel hAlive hPc hHeld hSize hLog =>
      refine ⟨?_, ?_, ?_⟩
      · intro j hj
        rw [hLog]
        exact hInv.past j (view_of_ended hPc proceeded rfl j hj)
      · intro j hj
        rw [hLog]
        exact hInv.committer j
          (view_of_ended hPc Cbop.committer rfl j hj)
      · rw [hLog]
        exact hInv.committed
  | aside hLabel hPc hHeld hSize hLog =>
      have hMem :
          ∀ e : Event ρ, e ≠ .becameSeq .undy →
            (e ∈ s'.log ↔ e ∈ s.log) :=
        fun e => mem_log_of_aside hLog
      refine ⟨?_, ?_, ?_⟩
      · intro j hj
        rw [hPc] at hj
        rw [hMem _ (by simp)]
        exact hInv.past j hj
      · intro j hj
        rw [hPc] at hj
        rw [hMem _ (by simp)]
        exact hInv.committer j hj
      · intro j hj
        rw [hMem _ (by simp), hMem _ (by simp)] at hj
        rw [hMem _ (by simp)]
        exact hInv.committed j hj

theorem proceedInv_of_reachable
    {cfg : Group ρ}
    {ok : State ρ → Proc × Act → Prop}
    {s : State ρ}
    (h : (protocol cfg).Reachable ok s) :
    ProceedInv s := by
  apply h.invariant ProceedInv
  · refine ⟨?_, ?_, ?_⟩
    · intro k hk
      by_cases hMain : k = 0 <;>
        simp [protocol, State.init, hMain, proceeded] at hk
    · intro k hk
      by_cases hMain : k = 0 <;>
        simp [protocol, State.init, hMain, committer] at hk
    · simp [protocol, State.init]
  · intro s label s' hReach hInv _ hStep
    exact proceedInv_step (unspawned_of_reachable hReach)
      hInv hStep

------------------------------------------------------------
-- One Group Commit
------------------------------------------------------------

/- The task has signalled, and leaves the size alone. -/
def settled : Pc ρ → Bool
| .waitNext => true
| .waitNextRelease => true
| .lastTest => true
| .waitGroup _ => true
| .waitGroupAcquire _ => true
| .groupCommit => true
| .groupSignal => true
| .waitUndyCreated => true
| .killUndy => true
| .waitUndyConceded => true
| .succFini => true
| .seq => true
| .exited _ => true
| _ => false

theorem TaskMove.settled
    {cfg : Group ρ}
    {k psize : Nat}
    {pc : Pc ρ}
    {act : Act}
    {move : Move ρ}
    (h : TaskMove cfg k psize pc act move)
    (hSettled : Cbop.settled pc = true) :
    Cbop.settled move.1 = true ∧
      ∀ p, move.2.1 ≠ .writeSize p := by
  cases h
  case work hUser =>
    cases pc <;> simp_all [userCode, Cbop.settled]
  case mainAbort hMay _ _ =>
    cases pc <;> simp_all [mayAbort, userCode, Cbop.settled]
  case mainAlone hMay _ _ =>
    cases pc <;> simp_all [mayAbort, userCode, Cbop.settled]
  case specAbort hMay _ =>
    cases pc <;> simp_all [mayAbort, userCode, Cbop.settled]
  case abortNext hUser =>
    cases pc <;> simp_all [userCode, Cbop.settled]
  all_goals simp_all [Cbop.settled]

/- A task that signals or commits the group is settled. -/
theorem TaskMove.settles
    {cfg : Group ρ}
    {k psize i : Nat}
    {pc : Pc ρ}
    {act : Act}
    {move : Move ρ}
    (h : TaskMove cfg k psize pc act move)
    (hEvent : Event.signalled i ∈ move.2.2 ∨
      Event.groupCommitted i ∈ move.2.2) :
    i = k ∧ Cbop.settled move.1 = true ∧
      sizeAfter psize move.2.1 = psize := by
  cases h <;> simp_all [Cbop.settled, sizeAfter]

/- The task shrinks the group to tasks up to itself only. -/
def shrinksFrom (k : Nat) : Pc ρ → Bool
| .setSize p next => k ≤ p && shrinksFrom k next
| .setAcquire p next => k ≤ p && shrinksFrom k next
| .setWrite p next => k ≤ p && shrinksFrom k next
| .setRelease next => shrinksFrom k next
| _ => true

theorem TaskMove.shrinksFrom
    {cfg : Group ρ}
    {k psize : Nat}
    {pc : Pc ρ}
    {act : Act}
    {move : Move ρ}
    (h : TaskMove cfg k psize pc act move)
    (hShrinks : Cbop.shrinksFrom k pc = true) :
    Cbop.shrinksFrom k move.1 = true ∧
      ∀ p, move.2.1 = .writeSize p → k ≤ p := by
  cases h <;> simp_all [Cbop.shrinksFrom]

theorem TaskMove.window_spec
    {cfg : Group ρ}
    {psize : Nat}
    {pc : Pc ρ}
    {act : Act}
    {move : Move ρ}
    (h : TaskMove cfg 0 psize pc act move)
    (hWindow : Cbop.window move.1 = true) :
    Cbop.window pc = true := by
  cases h <;> simp_all [Cbop.window]

/-
  Tasks that signalled no longer touch the size, and a group
  that was committed keeps its size.
-/
structure PrefixInv (s : State ρ) : Prop where
  signalled : ∀ i, Event.signalled i ∈ s.log →
    settled (s.pc i) = true
  committed : ∀ j, Event.groupCommitted j ∈ s.log →
    settled (s.pc j) = true
  size : ∀ j, Event.groupCommitted j ∈ s.log →
    j ≠ 0 ∧ s.partialSize = j + 1
  sizes : ∀ k, shrinksFrom k (s.pc k) = true
  main : window (s.pc 0) = false

theorem prefixInv_move
    {cfg : Group ρ}
    {s s' : State ρ}
    {k : Nat}
    {act : Act}
    {move : Move ρ}
    (hUnspawned : Unspawned s)
    (hFail : FailInv s)
    (hInv : PrefixInv s)
    (hOk : ShrinksInTime cfg s (.task k, act))
    (hMove : TaskMove cfg k s.partialSize (s.pc k) act move)
    (hPc : s'.pc =
      Function.update (pcAfter s.pc k move.2.1) k move.1)
    (hSize : s'.partialSize =
      sizeAfter s.partialSize move.2.1)
    (hLog : s'.log = s.log ++ move.2.2) :
    (∀ i, Event.signalled i ∈ s'.log →
      settled (s'.pc i) = true) ∧
    (∀ j, Event.groupCommitted j ∈ s'.log →
      settled (s'.pc j) = true) ∧
    ∀ j, Event.groupCommitted j ∈ s'.log →
      j ≠ 0 ∧ s'.partialSize = j + 1 := by
  rcases pcMoved_of_move hUnspawned hMove hPc with
    ⟨hSelf, hOther⟩
  have hKeep :
      ∀ i, settled (s.pc i) = true →
        settled (s'.pc i) = true := by
    intro i hi
    by_cases hEq : i = k
    · subst hEq
      rw [hSelf]
      exact (hMove.settled hi).1
    · rw [hOther settled rfl i hEq]
      exact hi
  refine ⟨?_, ?_, ?_⟩
  · intro i hi
    rw [hLog, List.mem_append] at hi
    rcases hi with hOld | hNew
    · exact hKeep i (hInv.signalled i hOld)
    · rcases hMove.settles (.inl hNew) with
        ⟨rfl, hPoint, -⟩
      rw [hSelf]
      exact hPoint
  · intro j hj
    rw [hLog, List.mem_append] at hj
    rcases hj with hOld | hNew
    · exact hKeep j (hInv.committed j hOld)
    · rcases hMove.settles (.inr hNew) with
        ⟨rfl, hPoint, -⟩
      rw [hSelf]
      exact hPoint
  · intro j hj
    rw [hLog, List.mem_append] at hj
    rw [hSize]
    rcases hj with hOld | hNew
    · cases hEffect : move.2.1 with
      | writeSize p =>
          -- only a later task could write, and a larger size
          have hLt : p < s.partialSize := by
            rcases hMove.writes hEffect with ⟨rfl, hNext⟩
            exact (hOk k p rfl hNext).1
          have hFrom : k ≤ p :=
            (hMove.shrinksFrom (hInv.sizes k)).2 p hEffect
          have hCommitted := (hInv.size j hOld).2
          have hStill : settled (s.pc k) = true := by
            by_cases hEq : k = j
            · rw [hEq]
              exact hInv.committed j hOld
            · exact hInv.signalled k
                (hFail.behind j hOld k (by omega))
          exact absurd hEffect ((hMove.settled hStill).2 p)
      | _ => exact hInv.size j hOld
    · rcases hMove.commits hNew with ⟨rfl, hAt, -⟩
      rw [(hMove.settles (.inr hNew)).2.2]
      refine ⟨?_, hFail.size j (by rw [hAt]; rfl)⟩
      intro hMain
      have hOut := hInv.main
      rw [← hMain, hAt] at hOut
      cases hOut

theorem prefixInv_step
    {cfg : Group ρ}
    {s s' : State ρ}
    {label : Proc × Act}
    (hUnspawned : Unspawned s)
    (hFail : FailInv s)
    (hInv : PrefixInv s)
    (hOk : ShrinksInTime cfg s label)
    (h : step cfg s label = some s') :
    PrefixInv s' := by
  have hCore := coreStep_of_step h
  have hSizes : ∀ k, shrinksFrom k (s'.pc k) = true := by
    apply views_of_coreStep shrinksFrom (fun _ => rfl)
      (fun _ _ => rfl) hUnspawned hCore ?_ hInv.sizes
    intro k act move _ hMove hShrinks
    exact (hMove.shrinksFrom hShrinks).1
  have hMain : window (s'.pc 0) = false := by
    have hViews := views_of_coreStep
      (fun k pc => k ≠ 0 || !window pc) (fun _ => rfl)
      (fun _ _ => by simp [window]) hUnspawned hCore
      (by
        intro k act move _ hMove hOld
        by_cases hk : k = 0
        · subst hk
          by_contra hNew
          have hWindow : window move.1 = true := by
            simpa using hNew
          simp [hMove.window_spec hWindow] at hOld
        · simp [hk])
      (by
        intro k
        by_cases hk : k = 0
        · simp [hk, hInv.main]
        · simp [hk])
    simpa using hViews 0
  cases hCore with
  | moved k act move hLabel hMove hFree hPc hHeld hSize
      hLog =>
      subst hLabel
      rcases prefixInv_move hUnspawned hFail hInv hOk hMove
          hPc hSize hLog with
        ⟨hSignalled, hCommitted, hGroup⟩
      exact ⟨hSignalled, hCommitted, hGroup, hSizes, hMain⟩
  | ended k why hLabel hAlive hPc hHeld hSize hLog =>
      have hOn := view_ended hPc settled rfl
      refine ⟨?_, ?_, ?_, hSizes, hMain⟩
      · intro i hi
        rw [hLog] at hi
        exact hOn i (hInv.signalled i hi)
      · intro j hj
        rw [hLog] at hj
        exact hOn j (hInv.committed j hj)
      · rw [hLog, hSize]
        exact hInv.size
  | aside hLabel hPc hHeld hSize hLog =>
      have hMem :
          ∀ e : Event ρ, e ≠ .becameSeq .undy →
            (e ∈ s'.log ↔ e ∈ s.log) :=
        fun e => mem_log_of_aside hLog
      refine ⟨?_, ?_, ?_, hSizes, hMain⟩
      · intro i hi
        rw [hMem _ (by simp)] at hi
        rw [hPc]
        exact hInv.signalled i hi
      · intro j hj
        rw [hMem _ (by simp)] at hj
        rw [hPc]
        exact hInv.committed j hj
      · intro j hj
        rw [hMem _ (by simp)] at hj
        rw [hSize]
        exact hInv.size j hj

theorem prefixInv_of_reachable
    {cfg : Group ρ}
    {s : State ρ}
    (h : (protocol cfg).Reachable (ShrinksInTime cfg) s) :
    PrefixInv s := by
  apply h.invariant PrefixInv
  · refine ⟨?_, ?_, ?_, ?_, ?_⟩
    · simp [protocol, State.init]
    · simp [protocol, State.init]
    · simp [protocol, State.init]
    · intro k
      by_cases hk : k = 0 <;>
        simp [protocol, State.init, hk, shrinksFrom]
    · simp [protocol, State.init, window]
  · intro s label s' hReach hInv hOk hStep
    exact prefixInv_step (unspawned_of_reachable hReach)
      (failInv_of_reachable hReach) hInv hOk hStep

/- A task signals without failing after a commit. -/
theorem dataCommitted_of_clean
    {s : State ρ}
    {i : Nat}
    (hSignal : SignalInv s)
    (hSignalled : Event.signalled i ∈ s.log)
    (hGroup : Event.groupCommitted i ∉ s.log)
    (hClean : i ≠ 0 → ¬Failed s.log i) :
    Event.dataCommitted i ∈ s.log := by
  rcases hSignal.cause i hSignalled with
    hData | hCommitted | hAborted
  · exact hData
  · exact absurd hCommitted hGroup
  · have hNotMain : i ≠ 0 := by
      intro hEq
      exact hSignal.main (hEq ▸ hAborted)
    exact absurd (.inl hAborted) (hClean hNotMain)

/- What holds when a task is about to commit the group. -/
theorem prefix_of_commit
    {cfg : Group ρ}
    {s : State ρ}
    (h : (protocol cfg).Reachable (ShrinksInTime cfg) s)
    {j : Nat}
    (hPc : s.pc j = .groupCommit) :
    (∀ i, Event.groupCommitted i ∉ s.log) ∧
      ∀ i, i < j → Event.dataCommitted i ∈ s.log := by
  have hFail := failInv_of_reachable h
  have hPrefix := prefixInv_of_reachable h
  have hNone : ∀ i, Event.groupCommitted i ∉ s.log := by
    intro i hi
    have hOld := (hPrefix.size i hi).2
    have hNow := hFail.size j (by rw [hPc]; rfl)
    have hEq : i = j := by omega
    have hPast := hFail.past i hi
    rw [hEq, hPc] at hPast
    simp [pastCommit] at hPast
  refine ⟨hNone, ?_⟩
  intro i hi
  refine dataCommitted_of_clean (signalInv_of_reachable h)
    (hFail.ready j (by rw [hPc]; rfl) i hi) (hNone i) ?_
  intro hNotMain
  exact clean_of_commit hFail hPc hNotMain (by omega)

section Committed

variable {cfg : Group ρ}
variable {s : State ρ}
variable {i j : Nat}

/- No two tasks commit the group. -/
theorem committed_unique
    (hPrefix : PrefixInv s)
    (hCommitted : Event.groupCommitted j ∈ s.log)
    (hOther : Event.groupCommitted i ∈ s.log) :
    i = j := by
  have hLeft := (hPrefix.size i hOther).2
  have hRight := (hPrefix.size j hCommitted).2
  omega

/- The tasks before the last one have committed data. -/
theorem data_of_committed
    (h : (protocol cfg).Reachable (ShrinksInTime cfg) s)
    (hCommitted : Event.groupCommitted j ∈ s.log)
    (hi : i < j) :
    Event.dataCommitted i ∈ s.log := by
  have hFail := failInv_of_reachable h
  refine dataCommitted_of_clean (signalInv_of_reachable h)
    (hFail.behind j hCommitted i hi) ?_ ?_
  · intro hGroup
    have hEq := committed_unique (prefixInv_of_reachable h)
      hCommitted hGroup
    omega
  · intro hNotMain
    exact hFail.clean j hCommitted i hNotMain (by omega)

/- The tasks of the committed group passed their checks. -/
theorem checked_of_committed
    (h : (protocol cfg).Reachable (ShrinksInTime cfg) s)
    (hCommitted : Event.groupCommitted j ∈ s.log)
    (hi : i ≤ j) :
    Event.checkEnded i true ∈ s.log := by
  have hProceed := proceedInv_of_reachable h
  by_cases hEq : i = j
  · rw [hEq]
    exact hProceed.committed j (.inr hCommitted)
  · exact hProceed.committed i
      (.inl (data_of_committed h hCommitted (by omega)))

end Committed

/-
  In every run whose writes of the size all shrink it in
  time, with failing checks, aborts and deaths: a task that
  commits the group is a speculative one and the only one
  that ever does. The group then has the tasks up to it,
  which all passed their check and did not fail, and those
  before it have committed their data.
-/
theorem group_commit_prefix
    (cfg : Group ρ)
    {s : State ρ}
    (h : (protocol cfg).Reachable (ShrinksInTime cfg) s)
    {j : Nat}
    (hCommitted : Event.groupCommitted j ∈ s.log) :
    (1 ≤ j ∧ j < cfg.size ∧ s.partialSize = j + 1) ∧
      (∀ i, Event.groupCommitted i ∈ s.log → i = j) ∧
      (∀ i, i < j → Event.dataCommitted i ∈ s.log) ∧
      (∀ i, i ≤ j → Event.checkEnded i true ∈ s.log) ∧
      ∀ i, 1 ≤ i → i ≤ j → ¬Failed s.log i := by
  have hPrefix := prefixInv_of_reachable h
  rcases hPrefix.size j hCommitted with ⟨hSpec, hSize⟩
  have hBound := (birthInv_of_reachable h).size
  refine ⟨⟨by omega, by omega, hSize⟩, ?_, ?_, ?_, ?_⟩
  · intro i hi
    exact committed_unique hPrefix hCommitted hi
  · intro i hi
    exact data_of_committed h hCommitted hi
  · intro i hi
    exact checked_of_committed h hCommitted hi
  · intro i hi hLe
    exact (failInv_of_reachable h).clean j hCommitted i
      (by omega) hLe

/- The check of task 2 fails, and task 1 commits. -/
def untilPairCommits : List (Proc × Act) :=
  List.replicate 10 (.task 0, .go) ++
    List.replicate 11 (.task 1, .go) ++
    List.replicate 5 (.task 2, .go) ++
    [(.task 2, .fail)] ++
    List.replicate 6 (.task 2, .go) ++
    List.replicate 7 (.task 1, .go)

theorem group_commit_prefix_pair :
    ∃ s, (protocol triple).Reachable
        (ShrinksInTime triple) s ∧
      Event.checkEnded 2 false ∈ s.log ∧
      Event.groupCommitted 1 ∈ s.log ∧
      s.partialSize = 2 ∧
      Event.dataCommitted 0 ∈ s.log := by
  have hRun := Machine.exists_reachable_of_run_within
    (protocol triple) (ShrinksInTime triple)
    (shrinksTest triple) (BirthInv triple)
    (fun _ hReach => birthInv_of_reachable hReach)
    (fun _ _ hInv hTest =>
      shrinksInTime_of_test (by decide) hInv hTest)
    untilPairCommits
    (fun s => Event.checkEnded 2 false ∈ s.log ∧
      Event.groupCommitted 1 ∈ s.log)
    (by decide)
  rcases hRun with ⟨s, hReach, hBoth⟩
  simp only [decide_eq_true_eq] at hBoth
  rcases hBoth with ⟨hFailed, hCommitted⟩
  rcases group_commit_prefix triple hReach hCommitted with
    ⟨⟨-, -, hSize⟩, -, hData, -⟩
  exact ⟨s, hReach, hFailed, hCommitted, hSize,
    hData 0 (by decide)⟩

end Cbop
