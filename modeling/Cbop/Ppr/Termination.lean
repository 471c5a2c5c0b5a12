import Cbop.Ppr.PrefixCommit
import Cbop.Ppr.Survivor
import Mathlib.Algebra.Order.BigOperators.Group.Finset

/-
  Every run of a group ends.

  Each step of a process lowers a rank of the state: what is
  left of the control flow of every task and of the
  understudy, and the signals that are still pending. Steps
  of the program's own code are not counted, and neither are
  the aborts it asks for.

  Main declarations:
    * `Act.counts`
    * `pcStepsLeft`, `undyStepsLeft`, `stepsLeft`
    * `stepsLeft_lt`
    * `group_run_bounded`
-/

namespace Cbop

variable {ρ : Type}

------------------------------------------------------------
-- The Rank
------------------------------------------------------------

/- A step of the library, or the handling of a signal. -/
def Act.counts : Act → Bool
| .go => true
| .fail => true
| .usr1 => true
| .usr2 => true
| _ => false

/- A bound of the signals that one step sends. -/
def sentAtOnce (cfg : Group ρ) : Nat :=
  cfg.size + 3

/-
  A bound of the steps task `k` has before it. A task that
  has all of `_task_group_commit` before it waits for each
  other task, asks the understudy and becomes sequential.
-/
def pcStepsLeft
    (cfg : Group ρ)
    (k : Nat) :
    Pc ρ → Nat
| .exited _ => 0
| .seq => 0
| .succFini => 1
| .waitUndyConceded => 2
| .killUndy => sentAtOnce cfg + 3
| .waitUndyCreated => sentAtOnce cfg + 4
| .groupSignal => sentAtOnce cfg + 5
| .groupCommit => sentAtOnce cfg + 6
| .waitGroup i => sentAtOnce cfg + 7 + 2 * (cfg.size - i)
| .waitGroupAcquire i =>
    sentAtOnce cfg + 8 + 2 * (cfg.size - (i + 1))
| .lastTest => sentAtOnce cfg + 8 + 2 * cfg.size
| .waitNextRelease => sentAtOnce cfg + 9 + 2 * cfg.size
| .waitNext => sentAtOnce cfg + 10 + 2 * cfg.size
| .signalCommit => sentAtOnce cfg + 11 + 2 * cfg.size
| .dataCommit => sentAtOnce cfg + 12 + 2 * cfg.size
| .commitTest => sentAtOnce cfg + 13 + 2 * cfg.size
| .checked _ => sentAtOnce cfg + 14 + 2 * cfg.size
| .inserting rest =>
    sentAtOnce cfg + 15 + 2 * cfg.size + rest.length
| .checking =>
    sentAtOnce cfg + 16 + 2 * cfg.size +
      (cfg.writes k).length
| .checkStart =>
    sentAtOnce cfg + 17 + 2 * cfg.size +
      (cfg.writes k).length
| .waitPrior =>
    sentAtOnce cfg + 18 + 2 * cfg.size +
      (cfg.writes k).length
| .taskCommit =>
    sentAtOnce cfg + 19 + 2 * cfg.size +
      (cfg.writes k).length
| .region =>
    sentAtOnce cfg + 20 + 2 * cfg.size +
      (cfg.writes k).length
| .gap =>
    sentAtOnce cfg + 21 + 2 * cfg.size +
      (cfg.writes k).length
| .unborn =>
    sentAtOnce cfg + 22 + 2 * cfg.size +
      (cfg.writes k).length
| .abortSignal => 1
| .setRelease next => pcStepsLeft cfg k next + 1
| .setWrite _ next => pcStepsLeft cfg k next + 2
| .setAcquire _ next => pcStepsLeft cfg k next + 3
| .setSize _ next => pcStepsLeft cfg k next + 4

/- A bound of the steps of the understudy. -/
def undyStepsLeft
    (cfg : Group ρ)
    (count : Nat) :
    UndyPc → Nat
| .unborn => 2 * sentAtOnce cfg + 6 + cfg.size
| .created => 2 * sentAtOnce cfg + 5 + cfg.size
| .running => 2 * sentAtOnce cfg + 4 + (cfg.size - count)
| .killSpecs => 2 * sentAtOnce cfg + 3
| .killMain => sentAtOnce cfg + 3
| .succFini => 2
| .setSeq => 1
| .seq => 0
| .conceded => 0
| .died => 0

/- The pending signals of one kind. -/
def pending (cfg : Group ρ) (signal : Proc → Bool) : Nat :=
  (signal .undy).toNat +
    ∑ k ∈ Finset.range (cfg.size + 1),
      (signal (.task k)).toNat

/- A bound of the steps that count from a state on. -/
def stepsLeft (cfg : Group ρ) (s : State ρ) : Nat :=
  (∑ k ∈ Finset.range (cfg.size + 1),
      pcStepsLeft cfg k (s.pc k)) +
    undyStepsLeft cfg s.undyPprCount s.undy +
    pending cfg s.usr1 + pending cfg s.usr2

------------------------------------------------------------
-- Sums
------------------------------------------------------------

/- Lowering one summand by `d` lowers the sum by `d`. -/
theorem sum_add_le
    {n k d : Nat}
    {f g : Nat → Nat}
    (hk : k < n)
    (hOther : ∀ j, j ≠ k → g j ≤ f j)
    (hSelf : g k + d ≤ f k) :
    (∑ j ∈ Finset.range n, g j) + d ≤
      ∑ j ∈ Finset.range n, f j := by
  have hMem : k ∈ Finset.range n := Finset.mem_range.mpr hk
  rw [← Finset.add_sum_erase _ f hMem,
    ← Finset.add_sum_erase _ g hMem]
  have hRest :
      ∑ j ∈ (Finset.range n).erase k, g j ≤
        ∑ j ∈ (Finset.range n).erase k, f j := by
    apply Finset.sum_le_sum
    intro j hj
    exact hOther j (Finset.ne_of_mem_erase hj)
  omega

theorem pending_le
    (cfg : Group ρ)
    (signal : Proc → Bool) :
    pending cfg signal ≤ cfg.size + 2 := by
  have hTasks :
      ∑ k ∈ Finset.range (cfg.size + 1),
          (signal (.task k)).toNat ≤
        ∑ _k ∈ Finset.range (cfg.size + 1), 1 :=
    Finset.sum_le_sum (fun k _ => Bool.toNat_le _)
  have hUndy := Bool.toNat_le (signal .undy)
  rw [← Finset.card_eq_sum_ones, Finset.card_range] at hTasks
  unfold pending
  omega

/- A handled signal is no longer pending. -/
theorem pending_handled
    (cfg : Group ρ)
    {signal : Proc → Bool}
    {p : Proc}
    (hProc : ∀ k, p = .task k → k < cfg.size + 1)
    (hSignal : signal p = true) :
    pending cfg (Function.update signal p false) + 1 ≤
      pending cfg signal := by
  unfold pending
  cases p with
  | undy =>
      have hTasks :
          ∀ j, Function.update signal .undy false (.task j) =
            signal (.task j) :=
        fun j => Function.update_of_ne (by simp) _ _
      simp only [hTasks, Function.update_self, hSignal,
        Bool.toNat_false, Bool.toNat_true]
      omega
  | task k =>
      have hSum := sum_add_le (d := 1)
        (f := fun j => (signal (.task j)).toNat)
        (g := fun j => (Function.update signal (.task k)
          false (.task j)).toNat) (hProc k rfl)
        (by
          intro j hj
          simp [Function.update_of_ne, hj])
        (by simp [hSignal])
      simp only [ne_eq, reduceCtorEq, not_false_eq_true,
        Function.update_of_ne]
      omega

------------------------------------------------------------
-- Every Step Lowers the Rank
------------------------------------------------------------

/- What a move of a task leaves of its own steps. -/
theorem TaskMove.stepsLeft
    {cfg : Group ρ}
    {k psize : Nat}
    {pc : Pc ρ}
    {act : Act}
    {move : Move ρ}
    (h : TaskMove cfg k psize pc act move)
    (hAct : act.counts = true)
    (hSize : psize ≤ cfg.size) :
    pcStepsLeft cfg k move.1 + 1 ≤ pcStepsLeft cfg k pc ∧
      (move.2.1 = .killUndy →
        pcStepsLeft cfg k move.1 + sentAtOnce cfg + 1 ≤
          pcStepsLeft cfg k pc) := by
  cases h <;>
    simp_all [pcStepsLeft, Act.counts] <;> omega

/- The understudy's own steps lower its part of the rank. -/
theorem stepsLeft_of_undy
    {cfg : Group ρ}
    {s s' : State ρ}
    {act : Act}
    (hAct : act.counts = true)
    (hSize : s.partialSize ≤ cfg.size)
    (h : stepUndy cfg s act = some s') :
    stepsLeft cfg s' + 1 ≤ stepsLeft cfg s := by
  have hUsr1 := pending_le cfg s'.usr1
  have hUsr2 := pending_le cfg s'.usr2
  cases act with
  | go =>
      cases undyMove_of_undyGo h with
      | killMain hUndy hUsr =>
          simp only [stepsLeft, hUndy, undyStepsLeft,
            sentAtOnce] at *
          omega
      | killSpecs hUndy =>
          simp only [stepsLeft, hUndy, undyStepsLeft,
            sentAtOnce, State.killAll2] at *
          omega
      | _ =>
          simp_all only [stepsLeft, undyStepsLeft,
            sentAtOnce, State.setHeld]
          omega
  | usr1 =>
      simp only [stepUndy, Option.ite_none_right_eq_some,
        Bool.and_eq_true, Option.some.injEq] at h
      rcases h with ⟨⟨hUsr, hAlive⟩, rfl⟩
      have hLess := pending_handled cfg (by simp) hUsr
      simp only [stepsLeft, State.undyUsr1, State.setHeld,
        undyStepsLeft]
      omega
  | usr2 =>
      simp only [stepUndy, Option.ite_none_right_eq_some,
        Bool.and_eq_true, Option.some.injEq] at h
      rcases h with ⟨⟨hUsr, hAlive⟩, rfl⟩
      have hLess := pending_handled cfg (by simp) hUsr
      simp only [stepsLeft, State.undyUsr2]
      omega
  | die => cases hAct
  | _ => simp [stepUndy] at h

/- A task whose steps are counted is one of the group. -/
theorem lt_of_alive
    {cfg : Group ρ}
    {s : State ρ}
    {k : Nat}
    (hBirth : BirthInv cfg s)
    (hAlive : alive (s.pc k) = true) :
    k < cfg.size + 1 := by
  have hBorn : s.pc k ≠ .unborn := by
    intro hEq
    simp [hEq, alive] at hAlive
  rcases hBirth.born k hBorn with hMain | hLt <;> omega

/- A signal that ends a task, or that the task ignores. -/
theorem stepsLeft_of_signal
    {cfg : Group ρ}
    {s : State ρ}
    {pc : Nat → Pc ρ}
    {usr1 usr2 : Proc → Bool}
    (hPc : ∀ j, pcStepsLeft cfg j (pc j) ≤
      pcStepsLeft cfg j (s.pc j))
    (hLess : pending cfg usr1 + pending cfg usr2 + 1 ≤
      pending cfg s.usr1 + pending cfg s.usr2) :
    stepsLeft cfg
        { s with pc := pc, usr1 := usr1, usr2 := usr2 } + 1 ≤
      stepsLeft cfg s := by
  have hTasks :
      ∑ k ∈ Finset.range (cfg.size + 1),
          pcStepsLeft cfg k (pc k) ≤
        ∑ k ∈ Finset.range (cfg.size + 1),
          pcStepsLeft cfg k (s.pc k) :=
    Finset.sum_le_sum (fun k _ => hPc k)
  unfold stepsLeft
  dsimp only
  omega

/- The task that moves, and the task it may fork. -/
theorem pcStepsLeft_of_move
    {cfg : Group ρ}
    {s s₁ : State ρ}
    {k : Nat}
    {act : Act}
    {move : Move ρ}
    (hUnspawned : Unspawned s)
    (hMove : TaskMove cfg k s.partialSize (s.pc k) act move)
    (hApply : s.apply k move.2.1 = some s₁)
    {j : Nat}
    (hj : j ≠ k) :
    pcStepsLeft cfg j ((s.moved s₁ k move).pc j) ≤
      pcStepsLeft cfg j (s.pc j) := by
  rw [moved_pc hApply, Function.update_of_ne hj]
  by_cases hFork : move.2.1 = .fork
  · by_cases hChild : j = k + 1
    · have hUnborn :=
        hUnspawned k (hMove.unspawned.2 hFork).1
      subst hChild
      simp only [pcAfter, hFork, if_true,
        Function.update_self, hUnborn, pcStepsLeft]
      omega
    · rw [pcAfter_of_ne _ _ hChild]
  · rw [pcAfter_of_quiet _ _ hFork]

theorem stepsLeft_of_move
    {cfg : Group ρ}
    {s s₁ : State ρ}
    {k : Nat}
    {act : Act}
    {move : Move ρ}
    (hUnspawned : Unspawned s)
    (hBirth : BirthInv cfg s)
    (hSurvivor : SurvivorInv s)
    (hAct : act.counts = true)
    (hMove : TaskMove cfg k s.partialSize (s.pc k) act move)
    (hApply : s.apply k move.2.1 = some s₁) :
    stepsLeft cfg (s.moved s₁ k move) + 1 ≤
      stepsLeft cfg s := by
  rcases hMove.stepsLeft hAct hBirth.size with
    ⟨hLower, hKill⟩
  have hk : k < cfg.size + 1 := by
    rcases hBirth.born k hMove.ne_unborn with
      hMain | hLt <;> omega
  have hOther :
      ∀ j, j ≠ k →
        pcStepsLeft cfg j ((s.moved s₁ k move).pc j) ≤
          pcStepsLeft cfg j (s.pc j) :=
    fun j hj => pcStepsLeft_of_move hUnspawned hMove hApply hj
  have hSelf : (s.moved s₁ k move).pc k = move.1 := by
    rw [moved_pc hApply, Function.update_self]
  have hUndy :
      undyStepsLeft cfg s₁.undyPprCount s₁.undy ≤
        undyStepsLeft cfg s.undyPprCount s.undy := by
    rw [apply_undyPprCount hApply]
    rcases undy_of_move hSurvivor hMove hApply with
      hSame | hUnborn
    · rw [hSame]
    · rw [apply_undy hApply, hUnborn]
      split <;> simp [undyStepsLeft]
  have hUsr2 := apply_usr2 hApply
  by_cases hKills : move.2.1 = .killUndy
  · have hSum := sum_add_le (d := sentAtOnce cfg + 1) hk
      hOther (by rw [hSelf]; exact hKill hKills)
    have hSent := pending_le cfg s₁.usr1
    simp only [stepsLeft, State.moved, State.setPc, hUsr2,
      sentAtOnce] at hSum ⊢
    omega
  · have hSum := sum_add_le (d := 1) hk hOther
      (by rw [hSelf]; exact hLower)
    have hUsr1 := apply_usr1 hApply hKills
    simp only [stepsLeft, State.moved, State.setPc, hUsr2,
      hUsr1] at hSum ⊢
    omega

/- Every step that counts lowers the rank. -/
theorem stepsLeft_lt
    {cfg : Group ρ}
    {s s' : State ρ}
    {label : Proc × Act}
    (hUnspawned : Unspawned s)
    (hBirth : BirthInv cfg s)
    (hSurvivor : SurvivorInv s)
    (hAct : label.2.counts = true)
    (h : step cfg s label = some s') :
    stepsLeft cfg s' < stepsLeft cfg s := by
  cases stepped_of_step h with
  | move hMove hApply =>
      exact stepsLeft_of_move hUnspawned hBirth hSurvivor
        hAct hMove hApply
  | @usr1 k hUsr hAlive =>
      have hLess := pending_handled cfg
        (fun j hj => by
          cases hj
          exact lt_of_alive hBirth hAlive) hUsr
      by_cases hLast : k = s.partialSize - 1
      · simp only [State.taskUsr1, if_pos hLast]
        exact stepsLeft_of_signal (fun _ => Nat.le_refl _)
          (by omega)
      · simp only [State.taskUsr1, if_neg hLast]
        refine stepsLeft_of_signal (s := s) ?_ ?_
        · intro j
          by_cases hSelf : j = k
          · simp [hSelf, pcStepsLeft]
          · simp [Function.update_of_ne hSelf]
        · dsimp only
          omega
  | @usr2 k hUsr hAlive =>
      have hLess := pending_handled cfg
        (fun j hj => by
          cases hj
          exact lt_of_alive hBirth hAlive) hUsr
      refine stepsLeft_of_signal (s := s) ?_ ?_
      · intro j
        by_cases hSelf : j = k
        · simp [hSelf, pcStepsLeft]
        · simp [Function.update_of_ne hSelf]
      · dsimp only
        omega
  | undy hUndy =>
      exact stepsLeft_of_undy hAct hBirth.size h

/-
  From every reachable state of a group, whatever happened
  before, the processes take at most `stepsLeft` steps until
  none can go on, in whichever order they run, signals are
  handled and checks fail; user code, aborts that the
  program asks for and deaths are not counted.
-/
theorem group_run_bounded
    (cfg : Group ρ)
    {s s' : State ρ}
    (h : (protocol cfg).Reachable Machine.anyStep s)
    {trace : List (Proc × Act)}
    (hActs : ∀ label ∈ trace, label.2.counts = true)
    (hRun : (protocol cfg).exec s trace = some s') :
    trace.length ≤ stepsLeft cfg s := by
  have hBound := Machine.exec_length_le
    ((protocol cfg).Reachable Machine.anyStep)
    (fun label => label.2.counts = true) (stepsLeft cfg)
    (fun _ _ _ hReach hStep => .step hReach trivial hStep)
    (fun _ _ _ hReach hAct hStep =>
      stepsLeft_lt (unspawned_of_reachable hReach)
        (birthInv_of_reachable hReach)
        (survivorInv_of_reachable hReach) hAct hStep)
    h hActs hRun
  omega

/- The steps until task 1 commits are within the bound. -/
theorem group_run_bounded_pair :
    (((protocol triple).exec (State.init triple)
        untilPairCommits).isSome = true) ∧
      untilPairCommits.length ≤
        stepsLeft triple (State.init triple) := by
  have hSome :
      ((protocol triple).exec (State.init triple)
        untilPairCommits).isSome = true := by
    decide
  refine ⟨hSome, ?_⟩
  rcases Option.isSome_iff_exists.mp hSome with ⟨s', hRun⟩
  exact group_run_bounded triple .start (by decide) hRun

end Cbop
