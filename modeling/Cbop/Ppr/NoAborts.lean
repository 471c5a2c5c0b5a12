import Cbop.Ppr.FailedSpeculation

/-
  Runs in which every check passes and no task aborts.

  The size of the group never changes, only the task with
  the last index commits the group, and it does so after
  every other task has committed its data.

  Main declarations:
    * `NoAborts`, `CalmInv`
    * `calmInv_of_reachable`
    * `calm_commit`
-/

namespace Cbop

variable {ρ : Type}

/- No check fails, and nobody aborts. -/
def NoAborts
    (_ : State ρ)
    (label : Proc × Act) : Prop :=
  label.2 ≠ .fail ∧ label.2 ≠ .abort ∧
    label.2 ≠ .abortNext

/- The task is on no path of an abort. -/
def calm : Pc ρ → Bool
| .setSize _ _ => false
| .setAcquire _ _ => false
| .setWrite _ _ => false
| .setRelease _ => false
| .abortSignal => false
| .checked false => false
| _ => true

def atDataCommit : Pc ρ → Bool
| .dataCommit => true
| .setSize _ next => atDataCommit next
| .setAcquire _ next => atDataCommit next
| .setWrite _ next => atDataCommit next
| .setRelease next => atDataCommit next
| _ => false

/- A task of the group goes on calmly. -/
theorem TaskMove.calm
    {cfg : Group ρ}
    {k psize : Nat}
    {pc : Pc ρ}
    {act : Act}
    {move : Move ρ}
    (h : TaskMove cfg k psize pc act move)
    (hAct : act ≠ .fail ∧ act ≠ .abort ∧ act ≠ .abortNext)
    (hk : k = 0 ∨ k < psize)
    (hCalm : Cbop.calm pc = true) :
    Cbop.calm move.1 = true ∧
      sizeAfter psize move.2.1 = psize ∧
      ∀ i, ¬Failed move.2.2 i := by
  cases h
  case outside hOut hSpec => omega
  all_goals simp_all [Cbop.calm, sizeAfter, Failed]

theorem TaskMove.forks
    {cfg : Group ρ}
    {k psize : Nat}
    {pc : Pc ρ}
    {act : Act}
    {move : Move ρ}
    (h : TaskMove cfg k psize pc act move)
    (hFork : move.2.1 = .fork) :
    k < psize - 1 := by
  cases h <;> simp_all

theorem TaskMove.atDataCommit
    {cfg : Group ρ}
    {k psize : Nat}
    {pc : Pc ρ}
    {act : Act}
    {move : Move ρ}
    (h : TaskMove cfg k psize pc act move)
    (hAt : Cbop.atDataCommit move.1 = true) :
    Cbop.atDataCommit pc = true ∨ k < psize - 1 := by
  cases h <;> simp_all [Cbop.atDataCommit]

/- A task commits its data in one move, at its own point. -/
theorem TaskMove.dataCommit_iff
    {cfg : Group ρ}
    {k psize i : Nat}
    {pc : Pc ρ}
    {act : Act}
    {move : Move ρ}
    (h : TaskMove cfg k psize pc act move) :
    Event.dataCommitted i ∈ move.2.2 ↔
      i = k ∧ act = .go ∧ pc = .dataCommit := by
  cases h <;> simp

/- What holds along a run without aborts. -/
structure CalmInv (cfg : Group ρ) (s : State ρ) : Prop where
  size : s.partialSize = cfg.size
  calm : ∀ k, Cbop.calm (s.pc k) = true
  born : ∀ k, s.pc k ≠ .unborn → k = 0 ∨ k < cfg.size
  unfailed : ∀ k, ¬Failed s.log k
  atData : ∀ k, atDataCommit (s.pc k) = true →
    k + 1 < cfg.size
  data : ∀ k, Event.dataCommitted k ∈ s.log →
    k + 1 < cfg.size
  last : ∀ k, Event.groupCommitted k ∈ s.log →
    k + 1 = cfg.size

theorem calmInv_move
    {cfg : Group ρ}
    {s s' : State ρ}
    {k : Nat}
    {act : Act}
    {move : Move ρ}
    (hUnspawned : Unspawned s)
    (hFail : FailInv s)
    (hInv : CalmInv cfg s)
    (hOk : NoAborts s (.task k, act))
    (hMove : TaskMove cfg k s.partialSize (s.pc k) act move)
    (hPc : s'.pc =
      Function.update (pcAfter s.pc k move.2.1) k move.1)
    (hSize : s'.partialSize =
      sizeAfter s.partialSize move.2.1)
    (hLog : s'.log = s.log ++ move.2.2) :
    CalmInv cfg s' := by
  rcases pcMoved_of_move hUnspawned hMove hPc with
    ⟨hSelf, hOther⟩
  have hBorn := hInv.born k hMove.ne_unborn
  rcases hMove.calm hOk (by rw [hInv.size]; exact hBorn)
      (hInv.calm k) with
    ⟨hCalm, hSame, hNoFail⟩
  refine ⟨?_, ?_, ?_, ?_, ?_, ?_, ?_⟩
  · rw [hSize, hSame]
    exact hInv.size
  · intro j
    by_cases hEq : j = k
    · rw [hEq, hSelf]
      exact hCalm
    · rw [hOther Cbop.calm rfl j hEq]
      exact hInv.calm j
  · intro j hj
    by_cases hEq : j = k
    · rw [hEq]
      exact hBorn
    · rw [hPc, Function.update_of_ne hEq] at hj
      by_cases hChild : j = k + 1 ∧ move.2.1 = .fork
      · have hFork := hMove.forks hChild.2
        rw [hInv.size] at hFork
        omega
      · apply hInv.born j
        unfold pcAfter at hj
        split at hj
        · rename_i hEffect
          rwa [Function.update_of_ne
            (fun h => hChild ⟨h, hEffect⟩)] at hj
        · exact hj
  · intro j hj
    rw [hLog, failed_append] at hj
    rcases hj with hj | hj
    · exact hInv.unfailed j hj
    · exact hNoFail j hj
  · intro j hj
    by_cases hEq : j = k
    · subst hEq
      rw [hSelf] at hj
      rcases hMove.atDataCommit hj with hAt | hLt
      · exact hInv.atData j hAt
      · rw [hInv.size] at hLt
        omega
    · rw [hOther Cbop.atDataCommit rfl j hEq] at hj
      exact hInv.atData j hj
  · intro j hj
    rw [hLog, List.mem_append] at hj
    rcases hj with hj | hj
    · exact hInv.data j hj
    · rcases hMove.dataCommit_iff.mp hj with ⟨rfl, -, hAt⟩
      exact hInv.atData j (by rw [hAt]; rfl)
  · intro j hj
    rw [hLog, List.mem_append] at hj
    rcases hj with hj | hj
    · exact hInv.last j hj
    · rcases hMove.commits hj with ⟨rfl, hAt, -⟩
      have hWindow := hFail.size j (by rw [hAt]; rfl)
      rw [hInv.size] at hWindow
      exact hWindow.symm

theorem calmInv_step
    {cfg : Group ρ}
    {s s' : State ρ}
    {label : Proc × Act}
    (hUnspawned : Unspawned s)
    (hFail : FailInv s)
    (hInv : CalmInv cfg s)
    (hOk : NoAborts s label)
    (h : step cfg s label = some s') :
    CalmInv cfg s' := by
  cases coreStep_of_step h with
  | moved k act move hLabel hMove hFree hPc hHeld hSize
      hLog =>
      subst hLabel
      exact calmInv_move hUnspawned hFail hInv hOk hMove hPc
        hSize hLog
  | ended k why hLabel hAlive hPc hHeld hSize hLog =>
      refine ⟨?_, ?_, ?_, ?_, ?_, ?_, ?_⟩
      · rw [hSize]
        exact hInv.size
      · intro j
        exact view_ended hPc Cbop.calm rfl j (hInv.calm j)
      · intro j hj
        apply hInv.born j
        by_cases hSelf : j = k
        · intro hUnborn
          rw [← hSelf, hUnborn] at hAlive
          cases hAlive
        · rwa [hPc, Function.update_of_ne hSelf] at hj
      · rw [hLog]
        exact hInv.unfailed
      · intro j hj
        exact hInv.atData j
          (view_of_ended hPc Cbop.atDataCommit rfl j hj)
      · rw [hLog]
        exact hInv.data
      · rw [hLog]
        exact hInv.last
  | aside hLabel hPc hHeld hSize hLog =>
      have hMem :
          ∀ e : Event ρ, e ≠ .becameSeq .undy →
            e ∈ s'.log → e ∈ s.log := by
        intro e he hMem
        exact (mem_log_of_aside hLog he).mp hMem
      refine ⟨?_, ?_, ?_, ?_, ?_, ?_, ?_⟩
      · rw [hSize]
        exact hInv.size
      · rw [hPc]
        exact hInv.calm
      · rw [hPc]
        exact hInv.born
      · intro j hj
        apply hInv.unfailed j
        rcases hj with hj | hj
        · exact .inl (hMem _ (by simp) hj)
        · exact .inr (hMem _ (by simp) hj)
      · rw [hPc]
        exact hInv.atData
      · intro j hj
        exact hInv.data j (hMem _ (by simp) hj)
      · intro j hj
        exact hInv.last j (hMem _ (by simp) hj)

/- Without aborts nobody writes the size. -/
theorem shrinksInTime_of_calm
    {cfg : Group ρ}
    {s : State ρ}
    (hInv : CalmInv cfg s)
    (label : Proc × Act) :
    ShrinksInTime cfg s label := by
  intro k p _ hNext
  have hCalm := hInv.calm k
  unfold nextSize at hNext
  split at hNext
  · rename_i hPc
    simp [hPc, calm] at hCalm
  · rename_i hPc
    simp [hPc, calm] at hCalm
  · cases hNext

theorem calmInv_of_reachable
    {cfg : Group ρ}
    {s : State ρ}
    (h : (protocol cfg).Reachable NoAborts s) :
    CalmInv cfg s ∧
      (protocol cfg).Reachable (ShrinksInTime cfg) s := by
  refine h.invariant (fun s => CalmInv cfg s ∧
    (protocol cfg).Reachable (ShrinksInTime cfg) s) ?_ ?_
  · refine ⟨?_, .start⟩
    change CalmInv cfg (State.init cfg)
    refine ⟨rfl, ?_, ?_, ?_, ?_, ?_, ?_⟩
    · intro k
      by_cases hk : k = 0 <;> simp [State.init, hk, calm]
    · intro k hk
      by_cases hMain : k = 0
      · exact .inl hMain
      · simp [State.init, hMain] at hk
    · simp [State.init, Failed]
    · intro k hk
      by_cases hMain : k = 0 <;>
        simp [State.init, hMain, atDataCommit] at hk
    · simp [State.init]
    · simp [State.init]
  · intro s label s' hReach hCase
    rcases hCase with ⟨hInv, hShrinks⟩
    intro hOk hStep
    constructor
    · exact calmInv_step (unspawned_of_reachable hReach)
        (failInv_of_reachable hShrinks) hInv hOk hStep
    · exact .step hShrinks
        (shrinksInTime_of_calm hInv label) hStep

/- A committing task is the last, after all the others. -/
theorem calm_commit
    {cfg : Group ρ}
    {s : State ρ}
    (h : (protocol cfg).Reachable NoAborts s)
    {j : Nat}
    (hPc : s.pc j = .groupCommit) :
    j + 1 = cfg.size ∧
      (∀ k, k < j → Event.dataCommitted k ∈ s.log) ∧
      ∀ k, Event.groupCommitted k ∉ s.log := by
  rcases calmInv_of_reachable h with ⟨hCalm, hShrinks⟩
  have hFail := failInv_of_reachable hShrinks
  have hSignal := signalInv_of_reachable h
  have hLast : j + 1 = cfg.size := by
    have hWindow := hFail.size j (by rw [hPc]; rfl)
    rw [hCalm.size] at hWindow
    exact hWindow.symm
  have hNone : ∀ k, Event.groupCommitted k ∉ s.log := by
    intro k hk
    have hSize := hCalm.last k hk
    have hEq : k = j := by omega
    have hPast := hFail.past k hk
    rw [hEq, hPc] at hPast
    simp [pastCommit] at hPast
  refine ⟨hLast, ?_, hNone⟩
  intro k hk
  have hSignalled := hFail.ready j (by rw [hPc]; rfl) k hk
  rcases hSignal.cause k hSignalled with hData | hGroup | hAborted
  · exact hData
  · exact absurd hGroup (hNone k)
  · exact absurd (.inl hAborted) (hCalm.unfailed k)

end Cbop
