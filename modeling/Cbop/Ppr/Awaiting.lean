import Cbop.Ppr.PrefixCommit
import Cbop.Ppr.Survivor

/-
  A group never waits for nobody.

  As long as no process dies, the size shrinks in time and
  the understudy concedes in time, some process of the group
  can go on until one has become sequential: MAIN until it
  has forked the understudy, the understudy until it has won
  or conceded, and then the task it conceded to.

  Main declarations:
    * `NoLosses`, `Quiet`
    * `TaskMoved`, `taskMoved_of_apply`
    * `AwaitInv`, `awaitInv_of_reachable`
    * `blocked`, `blocked_of_stuck`
    * `group_never_stuck`
-/

namespace Cbop

variable {ρ : Type}

/-
  No process dies, the size shrinks in time, and the
  understudy concedes in time.
-/
structure NoLosses
    (cfg : Group ρ)
    (s : State ρ)
    (label : Proc × Act) : Prop where
  shrinks : ShrinksInTime cfg s label
  concedes : ConcedesInTime s label
  lives : label.2 ≠ .die

/- Nobody has won, so no task has to leave. -/
structure Quiet (s : State ρ) : Prop where
  behind : s.undy.ahead = false
  uncommitted : ∀ j, Event.groupCommitted j ∉ s.log

------------------------------------------------------------
-- Moves
------------------------------------------------------------

/- The task holds the lock of the size. -/
def holdsSync : Pc ρ → Bool
| .setWrite _ _ => true
| .setRelease _ => true
| _ => false

section Moves

variable {cfg : Group ρ}
variable {k psize : Nat}
variable {pc : Pc ρ}
variable {act : Act}
variable {move : Move ρ}

theorem committer_of_claims
    {pc : Pc ρ}
    (h : claims pc = true) :
    committer pc = true := by
  induction pc <;> simp_all [claims, committer]

/- MAIN's region ends with the fork of the understudy. -/
theorem TaskMove.unended_keep
    (h : TaskMove cfg 0 psize pc act move)
    (hLives : act ≠ .die)
    (hUnended : unended pc = true) :
    move.2.1 = .spawnUndy ∨ unended move.1 = true := by
  cases h <;> simp_all [unended]

theorem TaskMove.committer_keep
    (h : TaskMove cfg k psize pc act move)
    (hLives : act ≠ .die)
    (hCommitter : Cbop.committer pc = true) :
    Cbop.committer move.1 = true := by
  cases h
  case specAbort hMay _ =>
    cases pc <;>
      simp_all [mayAbort, userCode, Cbop.committer]
  all_goals simp_all [Cbop.committer]

theorem TaskMove.commits_committer
    {i : Nat}
    (h : TaskMove cfg k psize pc act move)
    (hCommit : Event.groupCommitted i ∈ move.2.2) :
    i = k ∧ Cbop.committer move.1 = true := by
  cases h <;> simp_all [Cbop.committer]

theorem TaskMove.claims_keep
    (h : TaskMove cfg k psize pc act move)
    (hLives : act ≠ .die)
    (hClaims : claims pc = true) :
    claims move.1 = true := by
  cases h
  case specAbort hMay _ =>
    cases pc <;> simp_all [mayAbort, userCode, claims]
  all_goals simp_all [claims]

/- Who takes a lock of the understudy claims the group. -/
theorem TaskMove.acquires_undy
    (lock : Lock)
    (h : TaskMove cfg k psize pc act move)
    (hLock : lock.ofUndy = true) :
    (move.2.1 = .acquire lock → claims move.1 = true) ∧
      (move.2.1 = .acquire .undyConceded →
        claims pc = true ∧ move.1 = .succFini) ∧
      move.2.1 ≠ .release lock := by
  cases h <;> simp_all [claims] <;>
    (intro hEq; subst hEq; simp_all [Lock.ofUndy])

/- The committing task asks the understudy to concede. -/
theorem TaskMove.asks
    (h : TaskMove cfg k psize pc act move)
    (hKill : move.2.1 = .killUndy) :
    Cbop.committer pc = true ∧
      move.1 = .waitUndyConceded := by
  cases h <;> simp_all [Cbop.committer]

/- The last two steps of the committing task. -/
theorem TaskMove.outlasts
    (h : TaskMove cfg k psize pc act move)
    (hLives : act ≠ .die) :
    (pc = .waitUndyConceded →
      move.2.1 = .acquire .undyConceded ∧
        move.1 = .succFini) ∧
      (pc = .succFini →
        Event.becameSeq (.task k) ∈ move.2.2) := by
  cases h
  case work hUser => cases pc <;> simp_all [userCode]
  case mainAbort hMay _ _ =>
    cases pc <;> simp_all [mayAbort, userCode]
  case mainAlone hMay _ _ =>
    cases pc <;> simp_all [mayAbort, userCode]
  case specAbort hMay _ =>
    cases pc <;> simp_all [mayAbort, userCode]
  case abortNext hUser => cases pc <;> simp_all [userCode]
  all_goals simp_all

/- The lock of the size is kept until it is released. -/
theorem TaskMove.holdsSync
    (h : TaskMove cfg k psize pc act move)
    (hLives : act ≠ .die) :
    (move.2.1 = .acquire .sync →
      Cbop.holdsSync move.1 = true) ∧
      (Cbop.holdsSync pc = true →
        move.2.1 = .release .sync ∨
          Cbop.holdsSync move.1 = true) := by
  cases h
  case work hUser =>
    cases pc <;> simp_all [userCode, Cbop.holdsSync]
  case mainAbort hMay _ _ =>
    cases pc <;>
      simp_all [mayAbort, userCode, Cbop.holdsSync]
  case mainAlone hMay _ _ =>
    cases pc <;>
      simp_all [mayAbort, userCode, Cbop.holdsSync]
  case specAbort hMay _ =>
    cases pc <;>
      simp_all [mayAbort, userCode, Cbop.holdsSync]
  case abortNext hUser =>
    cases pc <;> simp_all [userCode, Cbop.holdsSync]
  all_goals simp_all [Cbop.holdsSync]

end Moves

/-
  What a move of task `k` leaves, with the points of all
  other tasks but the one it may fork.
-/
structure TaskMoved
    (s s' : State ρ)
    (k : Nat)
    (move : Move ρ) : Prop where
  self : s'.pc k = move.1
  keep : ∀ j, j ≠ k → s.pc j ≠ .unborn → s'.pc j = s.pc j
  back : ∀ j, j ≠ k → s'.pc j ≠ .gap → s.pc j = s'.pc j
  fork : move.2.1 = .fork → s'.pc (k + 1) = .gap
  free : ∀ lock, move.2.1 = .acquire lock →
    s.held lock = false
  held : s'.held = heldAfter s.held move.2.1
  undy : s'.undy =
    if move.2.1 = .spawnUndy then .created else s.undy
  usr1 : move.2.1 ≠ .killUndy → s'.usr1 = s.usr1
  usr2 : s'.usr2 = s.usr2
  size : s'.partialSize = sizeAfter s.partialSize move.2.1
  log : s'.log = s.log ++ move.2.2

theorem taskMoved_of_apply
    {cfg : Group ρ}
    {s s₁ : State ρ}
    {k : Nat}
    {act : Act}
    {move : Move ρ}
    (hUnspawned : Unspawned s)
    (hMove : TaskMove cfg k s.partialSize (s.pc k) act move)
    (hApply : s.apply k move.2.1 = some s₁) :
    TaskMoved s (s.moved s₁ k move) k move := by
  have hPc := moved_pc hApply
  have hHeld := apply_held hApply
  have hUndy := apply_undy hApply
  have hUsr1 := apply_usr1 hApply
  have hUsr2 := apply_usr2 hApply
  have hSize := apply_partialSize hApply
  refine ⟨?_, ?_, ?_, ?_, ?_, hHeld, hUndy, hUsr1, hUsr2,
    hSize, rfl⟩
  · rw [hPc, Function.update_self]
  · intro j hj hBorn
    rw [hPc, Function.update_of_ne hj]
    by_cases hFork : move.2.1 = .fork
    · have hUnborn :=
        hUnspawned k (hMove.unspawned.2 hFork).1
      apply pcAfter_of_ne
      intro hChild
      exact hBorn (hChild ▸ hUnborn)
    · rw [pcAfter_of_quiet _ _ hFork]
  · intro j hj hGap
    rw [hPc, Function.update_of_ne hj] at hGap ⊢
    by_cases hFork : move.2.1 = .fork
    · by_cases hChild : j = k + 1
      · simp [pcAfter, hFork, hChild] at hGap
      · rw [pcAfter_of_ne _ _ hChild]
    · rw [pcAfter_of_quiet _ _ hFork]
  · intro hFork
    rw [hPc, Function.update_of_ne (by omega)]
    simp [pcAfter, hFork]
  · intro lock hEffect
    rw [hEffect] at hApply
    exact free_of_acquire hApply

------------------------------------------------------------
-- The Invariant
------------------------------------------------------------

/- Who is still there, and who may be waited for. -/
structure AwaitInv (s : State ρ) : Prop where
  lives : s.undy ≠ .died
  main : s.undy = .unborn → unended (s.pc 0) = true
  usr1 : ∀ p, s.usr1 p = true → ¬Quiet s
  stays : s.undy.ahead = false →
    ∀ j, Event.groupCommitted j ∈ s.log →
      committer (s.pc j) = true
  created : s.held .undyCreated = true →
    s.undy.early = true ∨ s.undy.ahead = true ∨
      ∃ k, claims (s.pc k) = true
  asked : s.usr1 .undy = true → s.undy ≠ .conceded →
    s.undy.ahead = true ∨ ∃ k, s.pc k = .waitUndyConceded
  finish : s.undy = .conceded →
    ∃ k, (s.pc k = .waitUndyConceded ∧
        s.held .undyConceded = false) ∨
      s.pc k = .succFini ∨
      Event.becameSeq (.task k) ∈ s.log
  sync : Quiet s → s.held .sync = true →
    ∃ k, holdsSync (s.pc k) = true
  won : s.undy = .seq → Event.becameSeq .undy ∈ s.log

theorem held_of_heldAfter
    {held : Lock → Bool}
    {effect : Effect}
    {lock : Lock}
    (h : heldAfter held effect lock = true) :
    effect = .acquire lock ∨
      held lock = true ∧ effect ≠ .release lock := by
  cases effect with
  | acquire other =>
      by_cases hEq : lock = other
      · exact .inl (by rw [hEq])
      · right
        simpa [heldAfter, Function.update_of_ne hEq] using h
  | release other =>
      by_cases hEq : lock = other
      · simp [heldAfter, hEq] at h
      · right
        refine ⟨?_, by simpa using Ne.symm hEq⟩
        rwa [heldAfter, Function.update_of_ne hEq] at h
  | _ => exact .inr ⟨h, by simp⟩

section Steps

variable {cfg : Group ρ}
variable {s s' : State ρ}
variable {k : Nat}
variable {act : Act}
variable {move : Move ρ}

/- A task that has a point other tasks keep. -/
theorem TaskMoved.view
    (h : TaskMoved s s' k move)
    (view : Pc ρ → Bool)
    (hUnborn : view .unborn = false)
    (hSelf : view (s.pc k) = true → view move.1 = true)
    {j : Nat}
    (hj : view (s.pc j) = true) :
    view (s'.pc j) = true := by
  by_cases hEq : j = k
  · rw [hEq, h.self]
    exact hSelf (hEq ▸ hj)
  · rw [h.keep j hEq ?_]
    · exact hj
    · intro hNew
      rw [hNew, hUnborn] at hj
      cases hj

/- Views that do not tell a new task from none. -/
theorem TaskMoved.same
    (h : TaskMoved s s' k move)
    (view : Pc ρ → Bool)
    (hView : view .gap = view .unborn)
    {j : Nat}
    (hj : j ≠ k) :
    view (s'.pc j) = view (s.pc j) := by
  by_cases hBorn : s.pc j = .unborn
  · by_cases hGap : s'.pc j = .gap
    · rw [hBorn, hGap, hView]
    · rw [h.back j hj hGap]
  · rw [h.keep j hj hBorn]

/- A move leaves the understudy where it is, or forks it. -/
theorem TaskMoved.ahead
    (h : TaskMoved s s' k move)
    (hUndy : s'.undy = s.undy ∨ s.undy = .unborn) :
    s'.undy.ahead = s.undy.ahead := by
  rcases hUndy with hSame | hUnborn
  · rw [hSame]
  · rw [h.undy, hUnborn]
    split <;> rfl

/- The understudy ran ahead, or a task has committed. -/
theorem TaskMoved.quiet
    (h : TaskMoved s s' k move)
    (hUndy : s'.undy = s.undy ∨ s.undy = .unborn)
    (hQuiet : Quiet s') :
    Quiet s := by
  refine ⟨(h.ahead hUndy) ▸ hQuiet.behind, ?_⟩
  intro j hj
  apply hQuiet.uncommitted j
  rw [h.log]
  exact List.mem_append_left _ hj

/- MAIN has not ended its region when nobody waits for it. -/
theorem awaitInv_main_move
    (hInv : AwaitInv s)
    (hLives : act ≠ .die)
    (hMove : TaskMove cfg k s.partialSize (s.pc k) act move)
    (h : TaskMoved s s' k move)
    (hUnborn : s'.undy = .unborn) :
    unended (s'.pc 0) = true := by
  have hNot : move.2.1 ≠ .spawnUndy := by
    intro hSpawn
    rw [h.undy, if_pos hSpawn] at hUnborn
    cases hUnborn
  have hOld : unended (s.pc 0) = true := by
    apply hInv.main
    rw [h.undy, if_neg hNot] at hUnborn
    exact hUnborn
  by_cases hMain : k = 0
  · subst hMain
    rw [h.self]
    exact (hMove.unended_keep hLives hOld).resolve_left hNot
  · rw [h.keep 0 (Ne.symm hMain) ?_]
    · exact hOld
    · intro hNew
      rw [hNew] at hOld
      cases hOld

/- A task that committed the group is still there. -/
theorem awaitInv_stays_move
    (hInv : AwaitInv s)
    (hLives : act ≠ .die)
    (hMove : TaskMove cfg k s.partialSize (s.pc k) act move)
    (h : TaskMoved s s' k move)
    (hBehind : s.undy.ahead = false)
    {j : Nat}
    (hCommitted : Event.groupCommitted j ∈ s'.log) :
    committer (s'.pc j) = true := by
  rw [h.log, List.mem_append] at hCommitted
  rcases hCommitted with hOld | hNew
  · exact h.view committer rfl (hMove.committer_keep hLives)
      (hInv.stays hBehind j hOld)
  · rcases hMove.commits_committer hNew with ⟨rfl, hPoint⟩
    rw [h.self]
    exact hPoint

theorem awaitInv_created_move
    (hInv : AwaitInv s)
    (hLives : act ≠ .die)
    (hMove : TaskMove cfg k s.partialSize (s.pc k) act move)
    (h : TaskMoved s s' k move)
    (hUndy : s'.undy = s.undy ∨ s.undy = .unborn)
    (hHeld : s'.held .undyCreated = true) :
    s'.undy.early = true ∨ s'.undy.ahead = true ∨
      ∃ j, claims (s'.pc j) = true := by
  rw [h.held] at hHeld
  rcases held_of_heldAfter hHeld with hAcquire | hOld
  · refine .inr (.inr ⟨k, ?_⟩)
    rw [h.self]
    exact (hMove.acquires_undy .undyCreated rfl).1 hAcquire
  · rcases hInv.created hOld.1 with
      hEarly | hAhead | hClaims
    · left
      rw [h.undy]
      split
      · rfl
      · exact hEarly
    · right
      left
      rw [h.ahead hUndy]
      exact hAhead
    · rcases hClaims with ⟨j, hj⟩
      exact .inr (.inr ⟨j, h.view claims rfl
        (hMove.claims_keep hLives) hj⟩)

/- The task that asked waits until the understudy concedes. -/
theorem awaitInv_asked_move
    (hSurvivor : SurvivorInv s)
    (hInv : AwaitInv s)
    (hLives : act ≠ .die)
    (hMove : TaskMove cfg k s.partialSize (s.pc k) act move)
    (h : TaskMoved s s' k move)
    (hUndy : s'.undy = s.undy ∨ s.undy = .unborn)
    (hAsked : s'.usr1 .undy = true)
    (hRacing : s'.undy ≠ .conceded) :
    s'.undy.ahead = true ∨
      ∃ j, s'.pc j = .waitUndyConceded := by
  by_cases hKill : move.2.1 = .killUndy
  · exact .inr ⟨k, h.self.trans (hMove.asks hKill).2⟩
  · rw [h.usr1 hKill] at hAsked
    have hOld : s.undy ≠ .conceded := by
      intro hEq
      rcases hUndy with hSame | hUnborn
      · exact hRacing (hSame.trans hEq)
      · rw [hEq] at hUnborn
        cases hUnborn
    rcases hInv.asked hAsked hOld with hAhead | hWaits
    · left
      rw [h.ahead hUndy]
      exact hAhead
    · rcases hWaits with ⟨j, hj⟩
      refine .inr ⟨j, ?_⟩
      by_cases hEq : j = k
      · subst hEq
        -- its lock is taken until the understudy concedes
        have hAcquire := ((hMove.outlasts hLives).1 hj).1
        have hFree := h.free _ hAcquire
        rw [(hSurvivor.racing hOld).1] at hFree
        cases hFree
      · rw [h.keep j hEq (by simp [hj])]
        exact hj

theorem awaitInv_finish_move
    (hSurvivor : SurvivorInv s)
    (hInv : AwaitInv s)
    (hLives : act ≠ .die)
    (hMove : TaskMove cfg k s.partialSize (s.pc k) act move)
    (h : TaskMoved s s' k move)
    (hUndy : s'.undy = s.undy ∨ s.undy = .unborn)
    (hConceded : s'.undy = .conceded) :
    ∃ j, (s'.pc j = .waitUndyConceded ∧
        s'.held .undyConceded = false) ∨
      s'.pc j = .succFini ∨
      Event.becameSeq (.task j) ∈ s'.log := by
  have hOld : s.undy = .conceded := by
    rcases hUndy with hSame | hUnborn
    · exact hSame ▸ hConceded
    · rw [h.undy, hUnborn] at hConceded
      split at hConceded <;> cases hConceded
  have hKeep :
      ∀ j, j ≠ k → ∀ pc, pc ≠ .unborn → s.pc j = pc →
        s'.pc j = pc := by
    intro j hj pc hBorn hPc
    rw [h.keep j hj (by rw [hPc]; exact hBorn)]
    exact hPc
  rcases hInv.finish hOld with ⟨j, hWaits | hFini | hSeq⟩
  · rcases hWaits with ⟨hPc, hFree⟩
    by_cases hEq : j = k
    · subst hEq
      refine ⟨j, .inr (.inl ?_)⟩
      rw [h.self]
      exact ((hMove.outlasts hLives).1 hPc).2
    · refine ⟨j, .inl ⟨hKeep j hEq _ (by simp) hPc, ?_⟩⟩
      -- only the task itself takes the lock
      rw [h.held]
      by_contra hHeld
      rw [Bool.not_eq_false] at hHeld
      rcases held_of_heldAfter hHeld with hAcquire | hOther
      · have hClaims :=
          ((hMove.acquires_undy .undyConceded
            rfl).2.1 hAcquire).1
        exact hEq (hSurvivor.unique j k
          (by rw [hPc]; rfl) hClaims)
      · rw [hFree] at hOther
        cases hOther.1
  · by_cases hEq : j = k
    · subst hEq
      refine ⟨j, .inr (.inr ?_)⟩
      rw [h.log, List.mem_append]
      exact .inr ((hMove.outlasts hLives).2 hFini)
    · exact ⟨j, .inr (.inl (hKeep j hEq _ (by simp) hFini))⟩
  · refine ⟨j, .inr (.inr ?_)⟩
    rw [h.log]
    exact List.mem_append_left _ hSeq

theorem awaitInv_sync_move
    (hInv : AwaitInv s)
    (hLives : act ≠ .die)
    (hMove : TaskMove cfg k s.partialSize (s.pc k) act move)
    (h : TaskMoved s s' k move)
    (hQuiet : Quiet s)
    (hHeld : s'.held .sync = true) :
    ∃ j, holdsSync (s'.pc j) = true := by
  rcases hMove.holdsSync hLives with ⟨hTakes, hKeeps⟩
  rw [h.held] at hHeld
  rcases held_of_heldAfter hHeld with hAcquire | hOld
  · exact ⟨k, by rw [h.self]; exact hTakes hAcquire⟩
  · rcases hInv.sync hQuiet hOld.1 with ⟨j, hj⟩
    exact ⟨j, h.view holdsSync rfl
      (fun hSelf => (hKeeps hSelf).resolve_left hOld.2) hj⟩

theorem awaitInv_move
    (hSurvivor : SurvivorInv s)
    (hProceed : ProceedInv s)
    (hInv : AwaitInv s)
    (hLives : act ≠ .die)
    (hMove : TaskMove cfg k s.partialSize (s.pc k) act move)
    (h : TaskMoved s s' k move)
    (hUndy : s'.undy = s.undy ∨ s.undy = .unborn) :
    AwaitInv s' := by
  refine ⟨?_, awaitInv_main_move hInv hLives hMove h, ?_, ?_,
    awaitInv_created_move hInv hLives hMove h hUndy,
    awaitInv_asked_move hSurvivor hInv hLives hMove h hUndy,
    awaitInv_finish_move hSurvivor hInv hLives hMove h hUndy,
    ?_, ?_⟩
  · intro hDied
    rcases hUndy with hSame | hUnborn
    · exact hInv.lives (hSame ▸ hDied)
    · rw [h.undy, hUnborn] at hDied
      split at hDied <;> cases hDied
  · intro p hp hQuiet
    have hBefore := h.quiet hUndy hQuiet
    by_cases hKill : move.2.1 = .killUndy
    · exact hBefore.uncommitted k
        (hProceed.committer k (hMove.asks hKill).1)
    · rw [h.usr1 hKill] at hp
      exact hInv.usr1 p hp hBefore
  · intro hBehind j hj
    rw [h.ahead hUndy] at hBehind
    exact awaitInv_stays_move hInv hLives hMove h hBehind hj
  · intro hQuiet hHeld
    exact awaitInv_sync_move hInv hLives hMove h
      (h.quiet hUndy hQuiet) hHeld
  · intro hSeq
    rcases hUndy with hSame | hUnborn
    · rw [h.log]
      exact List.mem_append_left _
        (hInv.won (hSame ▸ hSeq))
    · rw [h.undy, hUnborn] at hSeq
      split at hSeq <;> cases hSeq

/- A group without an understudy has nobody who has won. -/
theorem quiet_of_unborn
    (hFail : FailInv s)
    (hPrefix : PrefixInv s)
    (hInv : AwaitInv s)
    (hUnborn : s.undy = .unborn) :
    Quiet s := by
  refine ⟨by rw [hUnborn]; rfl, ?_⟩
  intro j hj
  have hSpec := (hPrefix.size j hj).1
  have hSignalled := hFail.behind j hj 0 (by omega)
  have hSettled := hPrefix.signalled 0 hSignalled
  have hMain := hInv.main hUnborn
  cases hPc : s.pc 0 <;> simp_all [settled, unended]

/- A signal that a task ignores. -/
theorem awaitInv_ignored
    {usr1 : Proc → Bool}
    (hInv : AwaitInv s)
    (hUsr1 : ∀ p, usr1 p = true → s.usr1 p = true) :
    AwaitInv { s with usr1 := usr1 } := by
  have hQuiet :
      ∀ usr1, Quiet { s with usr1 := usr1 } → Quiet s :=
    fun _ h => ⟨h.behind, h.uncommitted⟩
  refine ⟨hInv.lives, hInv.main, ?_, hInv.stays,
    hInv.created, ?_, hInv.finish, ?_, hInv.won⟩
  · intro p hp h
    exact hInv.usr1 p (hUsr1 p hp) (hQuiet _ h)
  · intro h
    exact hInv.asked (hUsr1 _ h)
  · intro h
    exact hInv.sync (hQuiet _ h)

/- A signal that ends a task nobody waits for. -/
theorem awaitInv_ended
    {why : Why}
    (hInv : AwaitInv s)
    (hLoud : ¬Quiet s)
    (hMain : s.undy ≠ .unborn)
    (hOther : s.undy.ahead = false →
      committer (s.pc k) = false)
    (hPc : s'.pc = Function.update s.pc k (.exited why))
    (hUndy : s'.undy = s.undy)
    (hHeld : s'.held = s.held)
    (hLog : s'.log = s.log)
    (hUsr1 : ∀ p, s'.usr1 p = true → s.usr1 p = true) :
    AwaitInv s' := by
  have hQuiet : ¬Quiet s' := by
    intro h
    exact hLoud ⟨hUndy ▸ h.behind, hLog ▸ h.uncommitted⟩
  have hKeep :
      ∀ j, s.undy.ahead = false →
        committer (s.pc j) = true → s'.pc j = s.pc j := by
    intro j hBehind hj
    have hNe : j ≠ k := by
      intro hEq
      rw [hEq, hOther hBehind] at hj
      cases hj
    rw [hPc, Function.update_of_ne hNe]
  refine ⟨?_, ?_, ?_, ?_, ?_, ?_, ?_, ?_, ?_⟩
  · rw [hUndy]
    exact hInv.lives
  · intro h
    exact absurd (hUndy ▸ h) hMain
  · intro p _
    exact hQuiet
  · intro hBehind j hj
    rw [hUndy] at hBehind
    have hOld := hInv.stays hBehind j (hLog ▸ hj)
    rw [hKeep j hBehind hOld]
    exact hOld
  · rw [hUndy, hHeld]
    intro h
    rcases hInv.created h with hEarly | hAhead | hClaims
    · exact .inl hEarly
    · exact .inr (.inl hAhead)
    · cases hBehind : s.undy.ahead with
      | true => exact .inr (.inl rfl)
      | false =>
          rcases hClaims with ⟨j, hj⟩
          refine .inr (.inr ⟨j, ?_⟩)
          rw [hKeep j hBehind (committer_of_claims hj)]
          exact hj
  · rw [hUndy]
    intro h hRacing
    rcases hInv.asked (hUsr1 _ h) hRacing with
      hAhead | hWaits
    · exact .inl hAhead
    · cases hBehind : s.undy.ahead with
      | true => exact .inl rfl
      | false =>
          rcases hWaits with ⟨j, hj⟩
          refine .inr ⟨j, ?_⟩
          rw [hKeep j hBehind (by rw [hj]; rfl)]
          exact hj
  · rw [hUndy, hHeld, hLog]
    intro h
    have hBehind : s.undy.ahead = false := by
      rw [h]
      rfl
    rcases hInv.finish h with ⟨j, hWaits | hFini | hSeq⟩
    · refine ⟨j, .inl ⟨?_, hWaits.2⟩⟩
      rw [hKeep j hBehind (by rw [hWaits.1]; rfl)]
      exact hWaits.1
    · refine ⟨j, .inr (.inl ?_)⟩
      rw [hKeep j hBehind (by rw [hFini]; rfl)]
      exact hFini
    · exact ⟨j, .inr (.inr hSeq)⟩
  · intro h
    exact absurd h hQuiet
  · rw [hUndy, hLog]
    exact hInv.won

/- The understudy goes on with the race before the end. -/
theorem awaitInv_running
    (hInv : AwaitInv s)
    (hPc : s'.pc = s.pc)
    (hHeld : ∀ lock, lock ≠ .undyCreated →
      s'.held lock = s.held lock)
    (hCreated : s'.held .undyCreated = true →
      s.held .undyCreated = true ∧ s.undy.early = false)
    (hLog : s'.log = s.log)
    (hUsr1 : s'.usr1 = s.usr1)
    (hOld : s.undy.ahead = false ∧ s.undy ≠ .conceded)
    (hUndy : s'.undy = .running ∨ s'.undy = .killSpecs) :
    AwaitInv s' := by
  have hNew :
      s'.undy ≠ .died ∧ s'.undy ≠ .unborn ∧
        s'.undy ≠ .conceded ∧ s'.undy ≠ .seq := by
    rcases hUndy with h | h <;> simp [h]
  have hQuiet : Quiet s' → Quiet s := by
    intro h
    exact ⟨hOld.1, hLog ▸ h.uncommitted⟩
  refine ⟨hNew.1, ?_, ?_, ?_, ?_, ?_, ?_, ?_, ?_⟩
  · intro h
    exact absurd h hNew.2.1
  · intro p hp h
    exact hInv.usr1 p (hUsr1 ▸ hp) (hQuiet h)
  · intro _ j hj
    rw [hPc]
    exact hInv.stays hOld.1 j (hLog ▸ hj)
  · intro h
    rcases hCreated h with ⟨hTaken, hLate⟩
    rcases hInv.created hTaken with
      hEarly | hAhead | hClaims
    · simp [hLate] at hEarly
    · simp [hOld.1] at hAhead
    · rw [hPc]
      exact .inr (.inr hClaims)
  · intro h _
    rw [hUsr1] at h
    rcases hInv.asked h hOld.2 with hAhead | hWaits
    · simp [hOld.1] at hAhead
    · rw [hPc]
      exact .inr hWaits
  · intro h
    exact absurd h hNew.2.2.1
  · intro h hSync
    rw [hHeld _ (by simp)] at hSync
    rw [hPc]
    exact hInv.sync (hQuiet h) hSync
  · intro h
    exact absurd h hNew.2.2.2

/- The understudy is ahead: tasks are waited for no more. -/
theorem awaitInv_ahead
    (hFinish : s'.undy.ahead = true)
    (hLives : s'.undy ≠ .died)
    (hWon : s'.undy = .seq →
      Event.becameSeq .undy ∈ s'.log) :
    AwaitInv s' := by
  have hLoud : ¬Quiet s' := by
    intro h
    rw [h.behind] at hFinish
    cases hFinish
  refine ⟨hLives, ?_, fun _ _ => hLoud, ?_,
    fun _ => .inr (.inl hFinish),
    fun _ _ => .inl hFinish, ?_,
    fun h => absurd h hLoud, hWon⟩
  · intro h
    rw [h] at hFinish
    cases hFinish
  · intro h
    rw [hFinish] at h
    cases h
  · intro h
    rw [h] at hFinish
    cases hFinish

/- The understudy concedes to the task that asked. -/
theorem awaitInv_concedes
    (hInv : AwaitInv s)
    (hUsr : s.usr1 .undy = true)
    (hAlive : undyAlive s.undy = true)
    (hTime : s.undy.finishing = false) :
    AwaitInv s.undyUsr1 := by
  have hRacing : s.undy ≠ .conceded := by
    intro hEq
    rw [hEq] at hAlive
    cases hAlive
  have hBehind : s.undy.ahead = false := by
    cases hUndy : s.undy <;>
      simp_all [UndyPc.ahead, undyAlive, UndyPc.finishing]
  have hLoud : ¬Quiet s.undyUsr1 := by
    intro h
    exact hInv.usr1 _ hUsr ⟨hBehind, h.uncommitted⟩
  rcases (hInv.asked hUsr hRacing).resolve_left
    (by simp [hBehind]) with ⟨k, hk⟩
  have hClaims : claims (s.pc k) = true := by
    rw [hk]
    rfl
  refine ⟨?_, ?_, fun _ _ => hLoud,
    fun _ j hj => hInv.stays hBehind j hj, ?_, ?_, ?_,
    fun h => absurd h hLoud, ?_⟩
  · intro h
    cases h
  · intro h
    cases h
  · intro _
    exact .inr (.inr ⟨k, hClaims⟩)
  · intro _ h
    exact absurd rfl h
  · intro _
    exact ⟨k, .inl ⟨hk, by simp [State.undyUsr1,
      State.setHeld]⟩⟩
  · intro h
    cases h

theorem awaitInv_undy
    (hInv : AwaitInv s)
    (hOk : NoLosses cfg s (.undy, act))
    (h : UndyMove cfg s act s') :
    AwaitInv s' := by
  cases h with
  | created hUndy =>
      refine awaitInv_running hInv rfl ?_ ?_ rfl rfl ?_
        (.inl rfl)
      · intro lock hLock
        simp [State.setHeld, Function.update_of_ne hLock]
      · intro hTaken
        simp [State.setHeld] at hTaken
      · simp [hUndy, UndyPc.ahead, UndyPc.finishing]
  | goOn hUndy hCount =>
      refine awaitInv_running hInv rfl (fun _ _ => rfl) ?_
        rfl rfl ?_ (.inl hUndy)
      · intro hTaken
        exact ⟨hTaken, by rw [hUndy]; rfl⟩
      · simp [hUndy, UndyPc.ahead, UndyPc.finishing]
  | finishLine hUndy hCount =>
      refine awaitInv_running hInv rfl (fun _ _ => rfl) ?_
        rfl rfl ?_ (.inr rfl)
      · intro hTaken
        exact ⟨hTaken, by rw [hUndy]; rfl⟩
      · simp [hUndy, UndyPc.ahead, UndyPc.finishing]
  | killSpecs =>
      exact awaitInv_ahead rfl (by simp) (by simp)
  | killMain =>
      exact awaitInv_ahead rfl (by simp) (by simp)
  | succFini =>
      exact awaitInv_ahead rfl (by simp) (by simp)
  | setSeq =>
      exact awaitInv_ahead rfl (by simp) (by simp)
  | usr1 hUsr hAlive =>
      exact awaitInv_concedes hInv hUsr hAlive
        (hOk.concedes rfl)
  | usr2 hAlive =>
      exact ⟨hInv.lives, hInv.main,
        fun p hp h => hInv.usr1 p hp
          ⟨h.behind, h.uncommitted⟩,
        hInv.stays, hInv.created, hInv.asked, hInv.finish,
        fun h => hInv.sync ⟨h.behind, h.uncommitted⟩,
        hInv.won⟩
  | die => exact absurd rfl hOk.lives

end Steps

theorem awaitInv_step
    {cfg : Group ρ}
    {s s' : State ρ}
    {label : Proc × Act}
    (hUnspawned : Unspawned s)
    (hSurvivor : SurvivorInv s)
    (hProceed : ProceedInv s)
    (hFail : FailInv s)
    (hPrefix : PrefixInv s)
    (hAhead : AheadInv s)
    (hInv : AwaitInv s)
    (hOk : NoLosses cfg s label)
    (h : step cfg s label = some s') :
    AwaitInv s' := by
  have hBorn :
      ¬Quiet s → s.undy ≠ .unborn :=
    fun hLoud hUnborn =>
      hLoud (quiet_of_unborn hFail hPrefix hInv hUnborn)
  have hFlag :
      ∀ (flags : Proc → Bool) p q,
        Function.update flags p false q = true →
          flags q = true := by
    intro flags p q hq
    by_cases hEq : q = p
    · simp [hEq] at hq
    · rwa [Function.update_of_ne hEq] at hq
  cases stepped_of_step h with
  | move hMove hApply =>
      have hUndy := undy_of_move hSurvivor hMove hApply
      exact awaitInv_move hSurvivor hProceed hInv hOk.lives
        hMove (taskMoved_of_apply hUnspawned hMove hApply)
        hUndy
  | @usr1 k hUsr hAlive =>
      by_cases hLast : k = s.partialSize - 1
      · simp only [State.taskUsr1, if_pos hLast]
        exact awaitInv_ignored hInv (hFlag _ _)
      · simp only [State.taskUsr1, if_neg hLast]
        have hLoud := hInv.usr1 _ hUsr
        refine awaitInv_ended hInv hLoud (hBorn hLoud) ?_
          rfl rfl rfl rfl (hFlag _ _)
        -- the task that committed is the last one
        intro _
        by_contra hCommitter
        have hCommitted := hProceed.committer k
          (by simpa using hCommitter)
        have hSize := (hPrefix.size k hCommitted).2
        omega
  | @usr2 k hUsr hAlive =>
      have hWon : s.undy.ahead = true := hAhead.pending k hUsr
      have hLoud : ¬Quiet s := by
        intro hQuiet
        rw [hQuiet.behind] at hWon
        cases hWon
      refine awaitInv_ended hInv hLoud (hBorn hLoud) ?_
        rfl rfl rfl rfl (fun _ hp => hp)
      intro hBehind
      rw [hWon] at hBehind
      cases hBehind
  | undy hUndy => exact awaitInv_undy hInv hOk hUndy

theorem awaitInv_of_reachable
    {cfg : Group ρ}
    {s : State ρ}
    (h : (protocol cfg).Reachable (NoLosses cfg) s) :
    AwaitInv s := by
  apply h.invariant AwaitInv
  · refine ⟨?_, ?_, ?_, ?_, ?_, ?_, ?_, ?_, ?_⟩
    · simp [protocol, State.init]
    · intro _
      rfl
    · simp [protocol, State.init]
    · simp [protocol, State.init]
    · intro _
      exact .inl rfl
    · simp [protocol, State.init]
    · simp [protocol, State.init]
    · simp [protocol, State.init]
    · simp [protocol, State.init]
  · intro s label s' hReach hInv hOk hStep
    have hShrinks :
        (protocol cfg).Reachable (ShrinksInTime cfg) s :=
      hReach.mono (fun _ _ hOk => hOk.shrinks)
    exact awaitInv_step (unspawned_of_reachable hReach)
      (survivorInv_of_reachable hReach)
      (proceedInv_of_reachable hReach)
      (failInv_of_reachable hShrinks)
      (prefixInv_of_reachable hShrinks)
      (aheadInv_of_reachable
        (hReach.mono (fun _ _ hOk => hOk.concedes)))
      hInv hOk hStep

------------------------------------------------------------
-- Blocked Tasks
------------------------------------------------------------

/- What a task that cannot go on waits for. -/
def blocked (s : State ρ) (k : Nat) : Pc ρ → Prop
| .unborn => True
| .seq => True
| .exited _ => True
| .setAcquire _ _ => s.held .sync = true
| .waitPrior => s.held (.specChecked (k - 1)) = true
| .waitNext => s.held (.dataCommitted (k + 1)) = true
| .waitGroupAcquire i => s.held (.dataCommitted i) = true
| .waitUndyCreated => s.held .undyCreated = true
| .waitUndyConceded => s.held .undyConceded = true
| _ => False

theorem TaskMove.blocked
    {cfg : Group ρ}
    {s : State ρ}
    {k psize : Nat}
    {pc : Pc ρ}
    {act : Act}
    {move : Move ρ}
    {lock : Lock}
    (h : TaskMove cfg k psize pc act move)
    (hAcquire : move.2.1 = .acquire lock)
    (hHeld : s.held lock = true) :
    Cbop.blocked s k pc := by
  cases h <;> simp_all [Cbop.blocked]

/- Only tasks that are gone have no step before them. -/
theorem blocked_of_taskGo
    {cfg : Group ρ}
    {s : State ρ}
    {k psize : Nat}
    {pc : Pc ρ}
    (h : taskGo cfg k psize pc = none) :
    blocked s k pc := by
  unfold taskGo goTo at h
  split at h
  all_goals
    repeat' split at h
  all_goals first | contradiction | trivial

theorem blocked_of_stuck
    {cfg : Group ρ}
    {s : State ρ}
    {k : Nat}
    (h : step cfg s (.task k, .go) = none) :
    blocked s k (s.pc k) := by
  cases hGo : taskGo cfg k s.partialSize (s.pc k) with
  | none => exact blocked_of_taskGo hGo
  | some move =>
      have hApply : s.apply k move.2.1 = none := by
        by_contra hSome
        rcases Option.ne_none_iff_exists'.mp hSome with
          ⟨s₁, hs₁⟩
        simp [step, stepTask, taskStep, hGo, hs₁] at h
      cases hEffect : move.2.1 with
      | acquire lock =>
          rw [hEffect] at hApply
          have hHeld : s.held lock = true := by
            simpa [State.apply] using hApply
          exact (taskMove_of_taskGo hGo).blocked hEffect
            hHeld
      | _ =>
          rw [hEffect] at hApply
          cases hApply

/- Whoever holds the lock of the size goes on. -/
theorem not_blocked_of_holdsSync
    {s : State ρ}
    {k : Nat}
    {pc : Pc ρ}
    (h : holdsSync pc = true) :
    ¬blocked s k pc := by
  cases pc <;> simp_all [holdsSync, blocked]

/- MAIN goes on until it has forked the understudy. -/
theorem stuck_unborn
    {cfg : Group ρ}
    {s : State ρ}
    (hInv : AwaitInv s)
    (hQuiet : Quiet s)
    (hUnborn : s.undy = .unborn)
    (hStuck : ∀ k, step cfg s (.task k, .go) = none) :
    False := by
  have hMain := hInv.main hUnborn
  have hBlocked := blocked_of_stuck (hStuck 0)
  cases hPc : s.pc 0 <;>
    simp_all [unended, blocked]
  rcases hInv.sync hQuiet hBlocked with ⟨j, hj⟩
  exact not_blocked_of_holdsSync hj
    (blocked_of_stuck (hStuck j))

/- The understudy goes on by itself until it leaves. -/
theorem undy_of_stuck
    {cfg : Group ρ}
    {s : State ρ}
    (h : step cfg s (.undy, .go) = none) :
    s.undy = .unborn ∨ s.undy = .seq ∨
      s.undy = .conceded ∨ s.undy = .died := by
  simp only [step, stepUndy, undyGo] at h
  cases hUndy : s.undy <;> simp_all
  split at h <;> cases h

/- A test for `NoLosses` among the tasks there are. -/
def noLossesTest
    (cfg : Group ρ)
    (s : State ρ)
    (label : Proc × Act) : Bool :=
  shrinksTest cfg s label &&
    (label != (.undy, .usr1) || !s.undy.finishing) &&
    label.2 != .die

theorem noLosses_of_test
    {cfg : Group ρ}
    {s : State ρ}
    {label : Proc × Act}
    (hSize : 1 ≤ cfg.size)
    (hInv : BirthInv cfg s)
    (h : noLossesTest cfg s label = true) :
    NoLosses cfg s label := by
  simp only [noLossesTest, Bool.and_eq_true, bne_iff_ne,
    Bool.or_eq_true, Bool.not_eq_true'] at h
  rcases h with ⟨⟨hShrinks, hTime⟩, hLives⟩
  refine ⟨shrinksInTime_of_test hSize hInv hShrinks, ?_,
    hLives⟩
  intro hLabel
  exact hTime.resolve_left (by simp [hLabel])

end Cbop
