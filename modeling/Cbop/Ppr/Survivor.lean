import Cbop.Ppr.Steps

/-
  The race between speculation and the understudy.

  The `undy_created` lock is released once, when the
  understudy starts, and taken for good by one task; the
  `undy_conceded` lock is released only by an understudy
  that leaves. So at most one process ever goes on as SEQ.

  Both sides can vanish: the understudy sends SIGUSR2 some
  steps before it becomes SEQ and may still concede between.

  Main declarations:
    * `claims`, `outlived`, `RaceMove`
    * `SurvivorInv`, `survivorInv_of_reachable`
    * `at_most_one_survivor`
    * `ConcedesInTime`, `one_side_survives`
-/

namespace Cbop

variable {ρ : Type}

------------------------------------------------------------
-- The Race as a Task Runs It
------------------------------------------------------------

/- The task took `undy_created` and is still there. -/
def claims : Pc ρ → Bool
| .killUndy => true
| .waitUndyConceded => true
| .succFini => true
| .seq => true
| .setSize _ next => claims next
| .setAcquire _ next => claims next
| .setWrite _ next => claims next
| .setRelease next => claims next
| _ => false

/- The task took `undy_conceded` and is still there. -/
def outlived : Pc ρ → Bool
| .succFini => true
| .seq => true
| .setSize _ next => outlived next
| .setAcquire _ next => outlived next
| .setWrite _ next => outlived next
| .setRelease next => outlived next
| _ => false

def isSeq : Pc ρ → Bool
| .seq => true
| _ => false

/- The task has not reached the end of its region. -/
def unended : Pc ρ → Bool
| .gap => true
| .region => true
| .setSize _ next => unended next
| .setAcquire _ next => unended next
| .setWrite _ next => unended next
| .setRelease next => unended next
| _ => false

theorem claims_of_outlived
    {pc : Pc ρ}
    (h : outlived pc = true) :
    claims pc = true := by
  induction pc <;> simp_all [claims, outlived]

theorem outlived_of_isSeq
    {pc : Pc ρ}
    (h : isSeq pc = true) :
    outlived pc = true := by
  cases pc <;> simp_all [isSeq, outlived]

/- The effect is part of the race with the understudy. -/
def Effect.inRace : Effect → Bool
| .acquire lock => lock.ofUndy
| .release lock => lock.ofUndy
| .spawnUndy => true
| _ => false

/- A task's moves, as far as the race goes. -/
inductive RaceMove
    (k : Nat)
    (pc pc' : Pc ρ) :
    Effect → List (Event ρ) → Prop where
| plain
    {effect : Effect}
    {events : List (Event ρ)} :
    effect.inRace = false →
    (∀ p, Event.becameSeq p ∉ events) →
    (claims pc' = true → claims pc = true) →
    (outlived pc' = true → outlived pc = true) →
    (unended pc' = true → unended pc = true) →
      RaceMove k pc pc' effect events
| spawn :
    k = 0 → unended pc = true → claims pc' = false →
    unended pc' = false →
      RaceMove k pc pc' .spawnUndy []
| claim :
    claims pc = false → pc' = .killUndy →
      RaceMove k pc pc' (.acquire .undyCreated) []
| outlive :
    claims pc = true → pc' = .succFini →
      RaceMove k pc pc' (.acquire .undyConceded) []
| seq :
    outlived pc = true → pc' = .seq →
      RaceMove k pc pc' .quiet [.becameSeq (.task k)]

theorem TaskMove.race
    {cfg : Group ρ}
    {k psize : Nat}
    {pc : Pc ρ}
    {act : Act}
    {move : Move ρ}
    (h : TaskMove cfg k psize pc act move) :
    isSeq pc = false ∧
      RaceMove k pc move.1 move.2.1 move.2.2 := by
  cases h
  case endMain =>
    exact ⟨rfl, .spawn ‹_› rfl rfl rfl⟩
  case waitUndyCreated => exact ⟨rfl, .claim rfl rfl⟩
  case waitUndyConceded => exact ⟨rfl, .outlive rfl rfl⟩
  case succFini => exact ⟨rfl, .seq rfl rfl⟩
  case work hUser =>
    refine ⟨?_, .plain rfl (by simp) id id id⟩
    cases pc <;> simp_all [userCode, isSeq]
  case mainAbort hMay _ _ =>
    refine ⟨?_, .plain rfl (by simp) id id id⟩
    cases pc <;> simp_all [mayAbort, userCode, isSeq]
  case mainAlone hMay _ _ =>
    refine ⟨?_, .plain rfl (by simp) id id id⟩
    cases pc <;> simp_all [mayAbort, userCode, isSeq]
  case specAbort hMay _ =>
    refine ⟨?_, .plain rfl (by simp) ?_ ?_ ?_⟩
    · cases pc <;> simp_all [mayAbort, userCode, isSeq]
    · simp [claims]
    · simp [outlived]
    · simp [unended]
  case abortNext hUser =>
    refine ⟨?_, .plain rfl (by simp) id id id⟩
    cases pc <;> simp_all [userCode, isSeq]
  case die hAlive =>
    refine ⟨?_, .plain rfl (by simp) ?_ ?_ ?_⟩
    · cases pc <;> simp_all [alive, isSeq]
    · simp [claims]
    · simp [outlived]
    · simp [unended]
  all_goals
    exact ⟨rfl, .plain rfl (by simp)
      (by simp [claims]) (by simp [outlived])
      (by simp [unended])⟩

------------------------------------------------------------
-- At Most One Survivor
------------------------------------------------------------

/- The understudy has not released `undy_created`. -/
def UndyPc.early : UndyPc → Bool
| .unborn => true
| .created => true
| _ => false

/- What holds along every run of a group. -/
structure SurvivorInv (s : State ρ) : Prop where
  unborn : unended (s.pc 0) = true → s.undy = .unborn
  early : s.undy.early = true →
    s.held .undyCreated = true ∧
      ∀ k, claims (s.pc k) = false
  unique : ∀ i j, claims (s.pc i) = true →
    claims (s.pc j) = true → i = j
  taken : ∀ i, claims (s.pc i) = true →
    s.held .undyCreated = true
  racing : s.undy ≠ .conceded →
    s.held .undyConceded = true ∧
      ∀ k, outlived (s.pc k) = false
  seqTask : ∀ k, Event.becameSeq (.task k) ∈ s.log →
    isSeq (s.pc k) = true
  seqUndy : Event.becameSeq .undy ∈ s.log → s.undy = .seq

/-
  A change that adds no claim and leaves the understudy, its
  locks and the race's part of the log alone.
-/
theorem survivorInv_mono
    {s s' : State ρ}
    (hInv : SurvivorInv s)
    (hUndy : s'.undy = s.undy)
    (hHeld : ∀ lock, lock.ofUndy = true →
      s'.held lock = s.held lock)
    (hLog : ∀ p, Event.becameSeq p ∈ s'.log →
      Event.becameSeq p ∈ s.log)
    (hUnended : unended (s'.pc 0) = true →
      unended (s.pc 0) = true)
    (hClaims : ∀ j, claims (s'.pc j) = true →
      claims (s.pc j) = true)
    (hOutlived : ∀ j, outlived (s'.pc j) = true →
      outlived (s.pc j) = true)
    (hSeq : ∀ j, isSeq (s.pc j) = true →
      isSeq (s'.pc j) = true) :
    SurvivorInv s' := by
  have hCreated := hHeld .undyCreated rfl
  have hConceded := hHeld .undyConceded rfl
  refine ⟨?_, ?_, ?_, ?_, ?_, ?_, ?_⟩
  · intro h
    rw [hUndy]
    exact hInv.unborn (hUnended h)
  · intro h
    rw [hUndy] at h
    rw [hCreated]
    refine ⟨(hInv.early h).1, ?_⟩
    intro k
    have hOld := (hInv.early h).2 k
    by_contra hNew
    have := hClaims k (by simpa using hNew)
    simp [hOld] at this
  · intro i j hi hj
    exact hInv.unique i j (hClaims i hi) (hClaims j hj)
  · intro i hi
    rw [hCreated]
    exact hInv.taken i (hClaims i hi)
  · intro h
    rw [hUndy] at h
    rw [hConceded]
    refine ⟨(hInv.racing h).1, ?_⟩
    intro k
    have hOld := (hInv.racing h).2 k
    by_contra hNew
    have := hOutlived k (by simpa using hNew)
    simp [hOld] at this
  · intro k hk
    exact hSeq k (hInv.seqTask k (hLog _ hk))
  · intro h
    rw [hUndy]
    exact hInv.seqUndy (hLog _ h)

theorem heldAfter_of_plain
    (held : Lock → Bool)
    {effect : Effect}
    {lock : Lock}
    (hEffect : effect.inRace = false)
    (hLock : lock.ofUndy = true) :
    heldAfter held effect lock = held lock := by
  cases effect with
  | acquire other =>
      refine Function.update_of_ne ?_ _ _
      intro hEq
      subst hEq
      simp [Effect.inRace, hLock] at hEffect
  | release other =>
      refine Function.update_of_ne ?_ _ _
      intro hEq
      subst hEq
      simp [Effect.inRace, hLock] at hEffect
  | _ => rfl

/- A move of task `k` with its effect, as the race sees it. -/
structure RaceMoved
    (s s' : State ρ)
    (k : Nat)
    (pc' : Pc ρ)
    (effect : Effect)
    (events : List (Event ρ)) : Prop where
  pcs : PcMoved s.pc s'.pc k pc'
  main : k ≠ 0 → s'.pc 0 = s.pc 0
  held : s'.held = heldAfter s.held effect
  undy : s'.undy =
    if effect = .spawnUndy then .created else s.undy
  log : s'.log = s.log ++ events
  seqKeep : ∀ j, isSeq (s.pc j) = true →
    isSeq (s'.pc j) = true

theorem raceMoved_of_apply
    {cfg : Group ρ}
    {s s₁ : State ρ}
    {k : Nat}
    {act : Act}
    {move : Move ρ}
    (hUnspawned : Unspawned s)
    (hMove : TaskMove cfg k s.partialSize (s.pc k) act move)
    (hApply : s.apply k move.2.1 = some s₁) :
    RaceMoved s (s.moved s₁ k move) k move.1 move.2.1
      move.2.2 := by
  have hPc := moved_pc hApply
  have hMoved := pcMoved_of_move hUnspawned hMove hPc
  refine ⟨hMoved, ?_, ?_, ?_, rfl, ?_⟩
  · intro hk
    rw [hPc, Function.update_of_ne (Ne.symm hk),
      pcAfter_of_ne _ _ (by omega)]
  · change s₁.held = _
    exact apply_held hApply
  · change s₁.undy = _
    exact apply_undy hApply
  · intro j hj
    have hNe : j ≠ k := by
      intro hEq
      subst hEq
      simp [hMove.race.1] at hj
    rw [hMoved.other isSeq rfl j hNe]
    exact hj

section Moves

variable {s s' : State ρ}
variable {k : Nat}
variable {pc' : Pc ρ}
variable {events : List (Event ρ)}

/- What is no more at task `k` is no more at any task. -/
theorem RaceMoved.mono
    {effect : Effect}
    (h : RaceMoved s s' k pc' effect events)
    (view : Pc ρ → Bool)
    (hView : view .gap = view .unborn)
    (hSelf : view pc' = true → view (s.pc k) = true)
    (j : Nat)
    (hj : view (s'.pc j) = true) :
    view (s.pc j) = true := by
  by_cases hEq : j = k
  · rw [hEq, h.pcs.self] at hj
    rw [hEq]
    exact hSelf hj
  · rw [h.pcs.other view hView j hEq] at hj
    exact hj

/- As `RaceMoved.mono`, for the main task alone. -/
theorem RaceMoved.unended_mono
    {effect : Effect}
    (h : RaceMoved s s' k pc' effect events)
    (hSelf : unended pc' = true →
      unended (s.pc k) = true)
    (hMain : unended (s'.pc 0) = true) :
    unended (s.pc 0) = true := by
  by_cases hk : k = 0
  · subst hk
    rw [h.pcs.self] at hMain
    exact hSelf hMain
  · rw [h.main hk] at hMain
    exact hMain

/- A move outside the race. -/
theorem survivorInv_plain
    {effect : Effect}
    (hInv : SurvivorInv s)
    (h : RaceMoved s s' k pc' effect events)
    (hEffect : effect.inRace = false)
    (hEvents : ∀ p, Event.becameSeq p ∉ events)
    (hClaims : claims pc' = true →
      claims (s.pc k) = true)
    (hOutlived : outlived pc' = true →
      outlived (s.pc k) = true)
    (hUnended : unended pc' = true →
      unended (s.pc k) = true) :
    SurvivorInv s' := by
  apply survivorInv_mono hInv
  · have hNe : effect ≠ .spawnUndy := by
      intro hEq
      subst hEq
      simp [Effect.inRace] at hEffect
    simpa [hNe] using h.undy
  · intro lock hLock
    rw [h.held]
    exact heldAfter_of_plain _ hEffect hLock
  · intro p hp
    rw [h.log, List.mem_append] at hp
    rcases hp with hp | hp
    · exact hp
    · exact absurd hp (hEvents p)
  · exact h.unended_mono hUnended
  · exact h.mono claims rfl hClaims
  · exact h.mono outlived rfl hOutlived
  · exact h.seqKeep

/- The main task forks the understudy. -/
theorem survivorInv_spawn
    (hInv : SurvivorInv s)
    (h : RaceMoved s s' 0 pc' .spawnUndy [])
    (hUnended : unended (s.pc 0) = true)
    (hNoClaim : claims pc' = false)
    (hEnded : unended pc' = false) :
    SurvivorInv s' := by
  have hUnborn := hInv.unborn hUnended
  have hEarly := hInv.early (by rw [hUnborn]; rfl)
  have hRacing := hInv.racing (by simp [hUnborn])
  have hLog : s'.log = s.log := by
    rw [h.log, List.append_nil]
  have hNone : ∀ j, claims (s'.pc j) = false := by
    intro j
    by_cases hj : j = 0
    · rw [hj, h.pcs.self]
      exact hNoClaim
    · rw [h.pcs.other claims rfl j hj]
      exact hEarly.2 j
  refine ⟨?_, ?_, ?_, ?_, ?_, ?_, ?_⟩
  · rw [h.pcs.self, hEnded]
    simp
  · intro _
    rw [h.held]
    exact ⟨hEarly.1, hNone⟩
  · intro i j hi
    simp [hNone i] at hi
  · intro i hi
    simp [hNone i] at hi
  · intro _
    rw [h.held]
    refine ⟨hRacing.1, ?_⟩
    intro j
    by_contra hOut
    have hClaim : claims (s'.pc j) = true :=
      claims_of_outlived (by simpa using hOut)
    simp [hNone j] at hClaim
  · intro j hj
    rw [hLog] at hj
    exact h.seqKeep j (hInv.seqTask j hj)
  · intro hSeq
    rw [hLog] at hSeq
    simp [hInv.seqUndy hSeq] at hUnborn

/- A task takes `undy_created`. -/
theorem survivorInv_claim
    (hInv : SurvivorInv s)
    (h : RaceMoved s s' k .killUndy
      (.acquire .undyCreated) [])
    (hFree : s.held .undyCreated = false) :
    SurvivorInv s' := by
  have hUndy : s'.undy = s.undy := by
    simpa using h.undy
  have hLog : s'.log = s.log := by
    rw [h.log, List.append_nil]
  have hNone : ∀ j, claims (s.pc j) = false := by
    intro j
    by_contra hClaim
    have hTaken := hInv.taken j (by simpa using hClaim)
    simp [hFree] at hTaken
  have hOnly : ∀ j, claims (s'.pc j) = true → j = k := by
    intro j hj
    by_contra hNe
    rw [h.pcs.other claims rfl j hNe, hNone j] at hj
    cases hj
  refine ⟨?_, ?_, ?_, ?_, ?_, ?_, ?_⟩
  · intro hMain
    rw [hUndy]
    apply hInv.unborn
    exact h.unended_mono (by simp [unended]) hMain
  · intro hEarly
    rw [hUndy] at hEarly
    have hTaken := (hInv.early hEarly).1
    simp [hFree] at hTaken
  · intro i j hi hj
    rw [hOnly i hi, hOnly j hj]
  · intro _ _
    rw [h.held]
    simp [heldAfter]
  · intro hNe
    rw [hUndy] at hNe
    rcases hInv.racing hNe with ⟨hConceded, hOut⟩
    constructor
    · rw [h.held]
      exact hConceded
    · intro j
      by_cases hj : j = k
      · rw [hj, h.pcs.self]
        rfl
      · rw [h.pcs.other outlived rfl j hj]
        exact hOut j
  · intro j hj
    rw [hLog] at hj
    exact h.seqKeep j (hInv.seqTask j hj)
  · intro hSeq
    rw [hLog] at hSeq
    rw [hUndy]
    exact hInv.seqUndy hSeq

/- The winner goes on after the understudy conceded. -/
theorem survivorInv_conceded
    {effect : Effect}
    (hInv : SurvivorInv s)
    (h : RaceMoved s s' k pc' effect events)
    (hGone : s.undy = .conceded)
    (hUndy : s'.undy = s.undy)
    (hHeld : s'.held .undyCreated = s.held .undyCreated)
    (hClaim : claims (s.pc k) = true)
    (hUnended : unended pc' = false)
    (hSeq : ∀ p, Event.becameSeq p ∈ events →
      p = .task k ∧ isSeq pc' = true) :
    SurvivorInv s' := by
  have hClaims := h.mono claims rfl (fun _ => hClaim)
  refine ⟨?_, ?_, ?_, ?_, ?_, ?_, ?_⟩
  · intro hMain
    rw [hUndy]
    apply hInv.unborn
    exact h.unended_mono (by simp [hUnended]) hMain
  · simp [hUndy, hGone, UndyPc.early]
  · intro i j hi hj
    exact hInv.unique i j (hClaims i hi) (hClaims j hj)
  · intro i hi
    rw [hHeld]
    exact hInv.taken i (hClaims i hi)
  · simp [hUndy, hGone]
  · intro j hj
    rw [h.log, List.mem_append] at hj
    rcases hj with hj | hj
    · exact h.seqKeep j (hInv.seqTask j hj)
    · rcases hSeq _ hj with ⟨hSelf, hIs⟩
      cases hSelf
      rw [h.pcs.self]
      exact hIs
  · intro hj
    rw [h.log, List.mem_append] at hj
    rw [hUndy]
    rcases hj with hj | hj
    · exact hInv.seqUndy hj
    · cases (hSeq _ hj).1

end Moves

/- A move of a task keeps the invariant. -/
theorem survivorInv_move
    {cfg : Group ρ}
    {s s₁ : State ρ}
    {k : Nat}
    {act : Act}
    {move : Move ρ}
    (hInv : SurvivorInv s)
    (hUnspawned : Unspawned s)
    (hMove : TaskMove cfg k s.partialSize (s.pc k) act move)
    (hApply : s.apply k move.2.1 = some s₁) :
    SurvivorInv (s.moved s₁ k move) := by
  have hMoved := raceMoved_of_apply hUnspawned hMove hApply
  have hRace := hMove.race.2
  generalize hs' : s.moved s₁ k move = s' at *
  rcases move with ⟨pc', effect, events⟩
  simp only at hRace hApply hMoved
  cases hRace with
  | plain hEffect hEvents hClaims hOutlived hUnended =>
      exact survivorInv_plain hInv hMoved hEffect hEvents
        hClaims hOutlived hUnended
  | spawn hMain hUnended hNoClaim hEnded =>
      subst hMain
      exact survivorInv_spawn hInv hMoved hUnended hNoClaim
        hEnded
  | claim hNoClaim hNew =>
      subst hNew
      exact survivorInv_claim hInv hMoved
        (free_of_acquire hApply)
  | outlive hClaim hNew =>
      subst hNew
      have hFree := free_of_acquire hApply
      have hGone : s.undy = .conceded := by
        by_contra hNe
        have hTaken := (hInv.racing hNe).1
        simp [hFree] at hTaken
      apply survivorInv_conceded hInv hMoved hGone
      · simpa using hMoved.undy
      · rw [hMoved.held]
        rfl
      · exact hClaim
      · rfl
      · simp
  | seq hOutlived hNew =>
      subst hNew
      have hGone : s.undy = .conceded := by
        by_contra hNe
        have hNone := (hInv.racing hNe).2 k
        simp [hOutlived] at hNone
      apply survivorInv_conceded hInv hMoved hGone
      · simpa using hMoved.undy
      · rw [hMoved.held]
        rfl
      · exact claims_of_outlived hOutlived
      · rfl
      · intro p hp
        simpa [isSeq] using hp

/-
  The understudy goes on, past the release of its
  `undy_created` lock.
-/
theorem survivorInv_past
    {s s' : State ρ}
    (hInv : SurvivorInv s)
    (hAlive : undyAlive s.undy = true)
    (hPc : s'.pc = s.pc)
    (hEarly : s'.undy.early = false)
    (hCreated : ∀ k, claims (s.pc k) = true →
      s'.held .undyCreated = s.held .undyCreated)
    (hConceded : s'.undy ≠ .conceded →
      s'.held .undyConceded = s.held .undyConceded)
    (hTasks : ∀ k, Event.becameSeq (.task k) ∈ s'.log →
      Event.becameSeq (.task k) ∈ s.log)
    (hSeq : Event.becameSeq .undy ∈ s'.log →
      Event.becameSeq .undy ∈ s.log ∨ s'.undy = .seq) :
    SurvivorInv s' := by
  refine ⟨?_, ?_, ?_, ?_, ?_, ?_, ?_⟩
  · intro h
    rw [hPc] at h
    rw [hInv.unborn h] at hAlive
    simp [undyAlive] at hAlive
  · simp [hEarly]
  · rw [hPc]
    exact hInv.unique
  · intro i hi
    rw [hPc] at hi
    rw [hCreated i hi]
    exact hInv.taken i hi
  · intro hNe
    have hOld : s.undy ≠ .conceded := by
      intro hEq
      simp [hEq, undyAlive] at hAlive
    rw [hPc, hConceded hNe]
    exact hInv.racing hOld
  · intro k hk
    rw [hPc]
    exact hInv.seqTask k (hTasks k hk)
  · intro h
    rcases hSeq h with hOld | hNew
    · rw [hInv.seqUndy hOld] at hAlive
      simp [undyAlive] at hAlive
    · exact hNew

/- A step of the understudy keeps the invariant. -/
theorem survivorInv_undy
    {cfg : Group ρ}
    {s s' : State ρ}
    {act : Act}
    (hInv : SurvivorInv s)
    (hMove : UndyMove cfg s act s') :
    SurvivorInv s' := by
  have hPast :
      ∀ s', undyAlive s.undy = true → s'.pc = s.pc →
        s'.undy.early = false → s'.held = s.held →
        s'.log = s.log → SurvivorInv s' := by
    intro s' hAlive hPc hEarly hHeld hLog
    apply survivorInv_past hInv hAlive hPc hEarly
    · intro _ _
      rw [hHeld]
    · intro _
      rw [hHeld]
    · intro k hk
      exact hLog ▸ hk
    · intro h
      exact .inl (hLog ▸ h)
  cases hMove with
  | created hUndy =>
      have hEarly := hInv.early (by rw [hUndy]; rfl)
      refine survivorInv_past hInv (by rw [hUndy]; rfl) rfl
        rfl ?_ (fun _ => rfl) (fun _ h => h) .inl
      intro k hk
      simp [hEarly.2 k] at hk
  | goOn hUndy hCount =>
      exact survivorInv_mono hInv rfl (fun _ _ => rfl)
        (fun _ h => h) id (fun _ h => h) (fun _ h => h)
        (fun _ h => h)
  | finishLine hUndy hCount =>
      exact hPast _ (by rw [hUndy]; rfl) rfl rfl rfl rfl
  | killSpecs hUndy =>
      exact hPast _ (by rw [hUndy]; rfl) rfl rfl rfl rfl
  | killMain hUndy hUsr =>
      exact hPast _ (by rw [hUndy]; rfl) rfl rfl rfl rfl
  | succFini hUndy =>
      exact hPast _ (by rw [hUndy]; rfl) rfl rfl rfl rfl
  | setSeq hUndy =>
      refine survivorInv_past hInv (by rw [hUndy]; rfl) rfl
        rfl (fun _ _ => rfl) (fun _ => rfl) ?_
        (fun _ => .inr rfl)
      intro k hk
      simpa using hk
  | usr1 hUsr hAlive =>
      exact survivorInv_past hInv hAlive rfl rfl
        (fun _ _ => rfl) (fun h => absurd rfl h)
        (fun _ h => h) .inl
  | usr2 hAlive =>
      exact survivorInv_mono hInv rfl (fun _ _ => rfl)
        (fun _ h => h) id (fun _ h => h) (fun _ h => h)
        (fun _ h => h)
  | die hAlive =>
      exact hPast _ hAlive rfl rfl rfl rfl

/- A task that a signal ends keeps the invariant. -/
theorem survivorInv_ended
    {s s' : State ρ}
    {k : Nat}
    {why : Why}
    (hInv : SurvivorInv s)
    (hAlive : alive (s.pc k) = true)
    (hPc : s'.pc = Function.update s.pc k (.exited why))
    (hUndy : s'.undy = s.undy)
    (hHeld : s'.held = s.held)
    (hLog : s'.log = s.log) :
    SurvivorInv s' := by
  have hOff := view_of_ended hPc
  refine survivorInv_mono hInv hUndy ?_ ?_
    (hOff unended rfl 0) (hOff claims rfl)
    (hOff outlived rfl) ?_
  · intro lock _
    rw [hHeld]
  · intro p hp
    exact hLog ▸ hp
  · intro j hj
    have hNe : j ≠ k := by
      intro hEq
      subst hEq
      cases hCur : s.pc j <;> simp_all [isSeq, alive]
    rw [hPc, Function.update_of_ne hNe]
    exact hj

theorem survivorInv_step
    {cfg : Group ρ}
    {s s' : State ρ}
    {label : Proc × Act}
    (hUnspawned : Unspawned s)
    (hInv : SurvivorInv s)
    (h : step cfg s label = some s') :
    SurvivorInv s' := by
  cases stepped_of_step h with
  | move hMove hApply =>
      exact survivorInv_move hInv hUnspawned hMove hApply
  | @usr1 k hUsr hAlive =>
      by_cases hLast : k = s.partialSize - 1
      · simp only [State.taskUsr1, hLast, if_true]
        exact survivorInv_mono hInv rfl (fun _ _ => rfl)
          (fun _ h => h) id (fun _ h => h) (fun _ h => h)
          (fun _ h => h)
      · simp only [State.taskUsr1, hLast, if_false]
        exact survivorInv_ended hInv hAlive rfl rfl rfl rfl
  | @usr2 k hUsr hAlive =>
      exact survivorInv_ended hInv hAlive rfl rfl rfl rfl
  | undy hMove => exact survivorInv_undy hInv hMove

theorem survivorInv_of_reachable
    {cfg : Group ρ}
    {ok : State ρ → Proc × Act → Prop}
    {s : State ρ}
    (h : (protocol cfg).Reachable ok s) :
    SurvivorInv s := by
  apply h.invariant SurvivorInv
  · change SurvivorInv (State.init cfg)
    have hPc :
        ∀ k, claims ((State.init cfg).pc k) = false ∧
          outlived ((State.init cfg).pc k) = false := by
      intro k
      by_cases hk : k = 0 <;>
        simp [State.init, hk, claims, outlived]
    refine ⟨fun _ => rfl, ?_, ?_, ?_, ?_, ?_, ?_⟩
    · intro _
      exact ⟨rfl, fun k => (hPc k).1⟩
    · intro i j hi
      rw [(hPc i).1] at hi
      cases hi
    · intro i hi
      rw [(hPc i).1] at hi
      cases hi
    · intro _
      exact ⟨rfl, fun k => (hPc k).2⟩
    · intro k hk
      simp [State.init] at hk
    · intro h
      simp [State.init] at h
  · intro s label s' hReach hInv _ hStep
    exact survivorInv_step (unspawned_of_reachable hReach)
      hInv hStep

/-
  In every run of a group, at most one process sets its
  status to SEQ.
-/
theorem at_most_one_survivor
    (cfg : Group ρ)
    {s : State ρ}
    (h : (protocol cfg).Reachable Machine.anyStep s)
    {p q : Proc}
    (hp : Event.becameSeq p ∈ s.log)
    (hq : Event.becameSeq q ∈ s.log) :
    p = q := by
  have hInv := survivorInv_of_reachable h
  have hRival :
      ∀ k, Event.becameSeq (.task k) ∈ s.log →
        Event.becameSeq .undy ∉ s.log := by
    intro k hk hUndy
    have hOut := outlived_of_isSeq (hInv.seqTask k hk)
    have hSeq := hInv.seqUndy hUndy
    have hNone := (hInv.racing (by simp [hSeq])).2 k
    simp [hOut] at hNone
  cases p with
  | undy =>
      cases q with
      | undy => rfl
      | task j => exact absurd hp (hRival j hq)
  | task i =>
      cases q with
      | undy => exact absurd hq (hRival i hp)
      | task j =>
          have hI := claims_of_outlived
            (outlived_of_isSeq (hInv.seqTask i hp))
          have hJ := claims_of_outlived
            (outlived_of_isSeq (hInv.seqTask j hq))
          rw [hInv.unique i j hI hJ]

/- A group of two tasks that write nothing. -/
def pair : Group Unit where
  size := 2
  writes := fun _ => []
  atomicSet := false
  mainLeads := true

/-
  Both tasks up to the point where task 1 has sent SIGUSR1
  and waits for the understudy to concede.
-/
def untilUndyAsked : List (Proc × Act) :=
  List.replicate 10 (.task 0, .go) ++
    List.replicate 15 (.task 1, .go) ++
    [(.undy, .go), (.task 1, .go), (.task 1, .go)]

/- The understudy concedes and task 1 goes on as SEQ. -/
theorem at_most_one_survivor_spec :
    ∃ s, (protocol pair).Reachable Machine.anyStep s ∧
      Event.becameSeq (.task 1) ∈ s.log ∧
      ∀ q, Event.becameSeq q ∈ s.log → q = .task 1 := by
  have hRun := Machine.exists_reachable_of_run
    (protocol pair) Machine.anyStep (fun _ _ => true)
    (fun _ _ _ => trivial)
    (untilUndyAsked ++
      [(.undy, .usr1), (.task 1, .go), (.task 1, .go)])
    (fun s => Event.becameSeq (.task 1) ∈ s.log)
    (by decide)
  rcases hRun with ⟨s, hReach, hSeq⟩
  simp only [decide_eq_true_eq] at hSeq
  refine ⟨s, hReach, hSeq, ?_⟩
  intro q hq
  exact at_most_one_survivor pair hReach hq hSeq

------------------------------------------------------------
-- Someone Survives
------------------------------------------------------------

/- The understudy has sent SIGUSR2 and is not yet SEQ. -/
def UndyPc.finishing : UndyPc → Bool
| .killMain => true
| .succFini => true
| .setSeq => true
| _ => false

/- The understudy has sent SIGUSR2 and did not concede. -/
def UndyPc.ahead : UndyPc → Bool
| .seq => true
| .died => true
| undy => undy.finishing

/-
  The understudy does not handle SIGUSR1 between sending
  SIGUSR2 and becoming SEQ.
-/
def ConcedesInTime
    (s : State ρ)
    (label : Proc × Act) : Prop :=
  label = (.undy, .usr1) → s.undy.finishing = false

/- SIGUSR2 ended the task. -/
def endedByUsr2 : Pc ρ → Bool
| .exited (.usr2 _) => true
| .setSize _ next => endedByUsr2 next
| .setAcquire _ next => endedByUsr2 next
| .setWrite _ next => endedByUsr2 next
| .setRelease next => endedByUsr2 next
| _ => false

theorem TaskMove.endedByUsr2
    {cfg : Group ρ}
    {k psize : Nat}
    {pc : Pc ρ}
    {act : Act}
    {move : Move ρ}
    (h : TaskMove cfg k psize pc act move)
    (hEnded : Cbop.endedByUsr2 move.1 = true) :
    Cbop.endedByUsr2 pc = true := by
  cases h <;> simp_all [Cbop.endedByUsr2]

/- SIGUSR2 reaches tasks only from an understudy ahead. -/
structure AheadInv (s : State ρ) : Prop where
  pending : ∀ k, s.usr2 (.task k) = true →
    s.undy.ahead = true
  ended : ∀ k, endedByUsr2 (s.pc k) = true →
    s.undy.ahead = true

/- MAIN starts the understudy once. -/
theorem undy_of_move
    {cfg : Group ρ}
    {s s₁ : State ρ}
    {k : Nat}
    {act : Act}
    {move : Move ρ}
    (hInv : SurvivorInv s)
    (hMove : TaskMove cfg k s.partialSize (s.pc k) act move)
    (hApply : s.apply k move.2.1 = some s₁) :
    s₁.undy = s.undy ∨ s.undy = .unborn := by
  by_cases hSpawn : move.2.1 = .spawnUndy
  · have hRace := hMove.race.2
    rw [hSpawn] at hRace
    generalize move.2.2 = events at hRace
    cases hRace with
    | plain hEffect => simp [Effect.inRace] at hEffect
    | spawn hMain hUnended =>
        subst hMain
        exact .inr (hInv.unborn hUnended)
  · left
    rw [apply_undy hApply]
    simp [hSpawn]

/- A task's own moves neither send SIGUSR2 nor take one. -/
theorem aheadInv_move
    {cfg : Group ρ}
    {s s₁ : State ρ}
    {k : Nat}
    {act : Act}
    {move : Move ρ}
    (hUnspawned : Unspawned s)
    (hSurvivor : SurvivorInv s)
    (hInv : AheadInv s)
    (hMove : TaskMove cfg k s.partialSize (s.pc k) act move)
    (hApply : s.apply k move.2.1 = some s₁) :
    AheadInv (s.moved s₁ k move) := by
  have hMoved :=
    pcMoved_of_move hUnspawned hMove (moved_pc hApply)
  have hUsr2 : (s.moved s₁ k move).usr2 = s.usr2 := by
    change s₁.usr2 = s.usr2
    exact apply_usr2 hApply
  have hEnded :
      ∀ j, endedByUsr2 ((s.moved s₁ k move).pc j) = true →
        endedByUsr2 (s.pc j) = true := by
    intro j hj
    by_cases hSelf : j = k
    · subst hSelf
      rw [hMoved.self] at hj
      exact hMove.endedByUsr2 hj
    · rw [hMoved.other endedByUsr2 rfl j hSelf] at hj
      exact hj
  have hKeep :
      s.undy.ahead = true →
        (s.moved s₁ k move).undy.ahead = true := by
    intro hAhead
    change s₁.undy.ahead = true
    rcases undy_of_move hSurvivor hMove hApply with
      hUndy | hUnborn
    · rw [hUndy]
      exact hAhead
    · rw [hUnborn] at hAhead
      cases hAhead
  constructor
  · intro j hj
    rw [hUsr2] at hj
    exact hKeep (hInv.pending j hj)
  · intro j hj
    exact hKeep (hInv.ended j (hEnded j hj))

/- A step of the understudy that concedes in time. -/
theorem aheadInv_undy
    {cfg : Group ρ}
    {s s' : State ρ}
    {act : Act}
    (hInv : AheadInv s)
    (hOk : ConcedesInTime s (.undy, act))
    (hMove : UndyMove cfg s act s') :
    AheadInv s' := by
  have hKeep :
      s'.usr2 = s.usr2 → s'.pc = s.pc →
      (s.undy.ahead = true → s'.undy.ahead = true) →
        AheadInv s' := by
    intro hUsr2 hPc hAhead
    constructor
    · intro k hk
      exact hAhead (hInv.pending k (hUsr2 ▸ hk))
    · intro k hk
      exact hAhead (hInv.ended k (hPc ▸ hk))
  cases hMove with
  | created hUndy =>
      apply hKeep rfl rfl
      simp [hUndy, UndyPc.ahead, UndyPc.finishing]
  | goOn => exact hKeep rfl rfl id
  | finishLine hUndy =>
      apply hKeep rfl rfl
      simp [hUndy, UndyPc.ahead, UndyPc.finishing]
  | killSpecs =>
      exact ⟨fun _ _ => rfl, fun _ _ => rfl⟩
  | killMain =>
      exact ⟨fun _ _ => rfl, fun _ _ => rfl⟩
  | succFini =>
      exact ⟨fun _ _ => rfl, fun _ _ => rfl⟩
  | setSeq =>
      exact ⟨fun _ _ => rfl, fun _ _ => rfl⟩
  | usr1 hUsr hAlive =>
      -- the one step that would lose what was sent
      have hTime := hOk rfl
      apply hKeep rfl rfl
      intro hAhead
      cases hUndy : s.undy <;>
        simp_all [UndyPc.ahead, UndyPc.finishing,
          undyAlive]
  | usr2 =>
      constructor
      · intro k hk
        apply hInv.pending k
        simpa [State.undyUsr2] using hk
      · exact hInv.ended
  | die =>
      exact ⟨fun _ _ => rfl, fun _ _ => rfl⟩

theorem aheadInv_step
    {cfg : Group ρ}
    {s s' : State ρ}
    {label : Proc × Act}
    (hUnspawned : Unspawned s)
    (hSurvivor : SurvivorInv s)
    (hInv : AheadInv s)
    (hOk : ConcedesInTime s label)
    (h : step cfg s label = some s') :
    AheadInv s' := by
  cases stepped_of_step h with
  | move hMove hApply =>
      exact aheadInv_move hUnspawned hSurvivor hInv hMove
        hApply
  | @usr1 k hUsr hAlive =>
      by_cases hLast : k = s.partialSize - 1
      · simp only [State.taskUsr1, hLast, if_true]
        exact ⟨hInv.pending, hInv.ended⟩
      · simp only [State.taskUsr1, hLast, if_false]
        refine ⟨hInv.pending, ?_⟩
        intro j hj
        apply hInv.ended j
        by_cases hSelf : j = k
        · subst hSelf
          simp [State.setPc, endedByUsr2] at hj
        · simpa [State.setPc, hSelf] using hj
  | @usr2 k hUsr hAlive =>
      have hAhead : s.undy.ahead = true := hInv.pending k hUsr
      exact ⟨fun _ _ => hAhead, fun _ _ => hAhead⟩
  | undy hMove => exact aheadInv_undy hInv hOk hMove

theorem aheadInv_of_reachable
    {cfg : Group ρ}
    {s : State ρ}
    (h : (protocol cfg).Reachable ConcedesInTime s) :
    AheadInv s := by
  apply h.invariant AheadInv
  · change AheadInv (State.init cfg)
    constructor
    · intro k hk
      simp [State.init] at hk
    · intro k hk
      by_cases hMain : k = 0 <;>
        simp [State.init, hMain, endedByUsr2] at hk
  · intro s label s' hReach hInv hOk hStep
    exact aheadInv_step (unspawned_of_reachable hReach)
      (survivorInv_of_reachable hReach) hInv hOk hStep

/-
  As long as the understudy concedes in time, no reachable
  state has both the understudy conceded and a task ended by
  its SIGUSR2.
-/
theorem one_side_survives
    (cfg : Group ρ)
    {s : State ρ}
    (h : (protocol cfg).Reachable ConcedesInTime s) :
    ¬(s.undy = .conceded ∧
      ∃ k inCommit, s.pc k = .exited (.usr2 inCommit)) := by
  intro hCase
  rcases hCase with ⟨hConceded, k, inCommit, hPc⟩
  have hInv := aheadInv_of_reachable h
  have hAhead := hInv.ended k (by rw [hPc]; rfl)
  simp [hConceded, UndyPc.ahead,
    UndyPc.finishing] at hAhead

/-
  The understudy concedes before it finishes, and task 1
  lives.
-/
theorem one_side_survives_spec :
    ∃ s, (protocol pair).Reachable ConcedesInTime s ∧
      s.undy = .conceded ∧
      ∀ k inCommit, s.pc k ≠ .exited (.usr2 inCommit) := by
  have hRun := Machine.exists_reachable_of_run
    (protocol pair) ConcedesInTime
    (fun s label =>
      label ≠ (.undy, .usr1) || !s.undy.finishing)
    (by
      intro s label hTest hLabel
      simpa [hLabel] using hTest)
    (untilUndyAsked ++ [(.undy, .usr1), (.task 1, .go)])
    (fun s => s.undy = .conceded)
    (by decide)
  rcases hRun with ⟨s, hReach, hConceded⟩
  simp only [decide_eq_true_eq] at hConceded
  refine ⟨s, hReach, hConceded, ?_⟩
  intro k inCommit hPc
  exact one_side_survives pair hReach
    ⟨hConceded, k, inCommit, hPc⟩

/-
  The understudy passes the finish line and sends SIGUSR2
  while task 1 waits for it to concede, then handles the
  pending SIGUSR1 and leaves; SIGUSR2 then ends task 1.
-/
theorem both_sides_vanish :
    ¬∀ s, (protocol pair).Reachable Machine.anyStep s →
      ¬(s.undy = .conceded ∧
        ∃ k, s.pc k = .exited (.usr2 true)) := by
  intro hAll
  have hRun := Machine.exists_reachable_of_run
    (protocol pair) Machine.anyStep (fun _ _ => true)
    (fun _ _ _ => trivial)
    (untilUndyAsked ++
      [(.undy, .go), (.undy, .go), (.undy, .usr1),
        (.task 1, .usr2)])
    (fun s => s.undy = .conceded ∧
      s.pc 1 = .exited (.usr2 true))
    (by decide)
  rcases hRun with ⟨s, hReach, hBoth⟩
  simp only [decide_eq_true_eq] at hBoth
  exact hAll s hReach ⟨hBoth.1, 1, hBoth.2⟩

end Cbop
