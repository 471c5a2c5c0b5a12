import Cbop.Ppr.Steps

/-
  Correctness checks are serialised in task order.

  The `spec_checked` locks hand one baton from task to task:
  it is with a task that may start its check, with a task
  that is checking, or in the lock of the last task that
  checked. A task that aborts or dies inside its check keeps
  the baton, and no later task starts.

  Main declarations:
    * `Phase`, `phase`, `CheckMove`
    * `Relay`, `RelayStep`, `relayStep_of_step`
    * `Baton`, `CheckInv`, `checkInv_of_reachable`
    * `checks_serialised`
-/

namespace Cbop

variable {ρ : Type}

------------------------------------------------------------
-- What the Log Says About Checks
------------------------------------------------------------

/- The tasks that started their check, in order. -/
def starts (log : List (Event ρ)) : List Nat :=
  log.filterMap fun
    | .checkStarted k => some k
    | _ => none

/- The ranges added to the write union, in order. -/
def insertions (log : List (Event ρ)) : List ρ :=
  log.filterMap fun
    | .inserted _ range => some range
    | _ => none

/- The check of task `k` passed. -/
def passed (log : List (Event ρ)) (k : Nat) : Bool :=
  log.any fun
    | .checkEnded j true => j = k
    | _ => false

/- The check of task `k` ended. -/
def ended (log : List (Event ρ)) (k : Nat) : Bool :=
  log.any fun
    | .checkEnded j _ => j = k
    | _ => false

/- The check of task `k` has started and not ended. -/
def openCheck (log : List (Event ρ)) (k : Nat) : Prop :=
  k ∈ starts log ∧ ended log k = false

/-
  The write ranges of the tasks below `m` whose check
  passed, each task's complete and in task order.
-/
def passedWrites
    (cfg : Group ρ)
    (log : List (Event ρ))
    (m : Nat) :
    List ρ :=
  (List.range m).flatMap
    (fun j => if passed log j then cfg.writes j else [])

/- The event is part of no check. -/
def Event.outsideCheck : Event ρ → Bool
| .checkStarted _ => false
| .inserted _ _ => false
| .checkEnded _ _ => false
| _ => true

theorem starts_append
    (log events : List (Event ρ)) :
    starts (log ++ events) = starts log ++ starts events :=
  List.filterMap_append

theorem insertions_append
    (log events : List (Event ρ)) :
    insertions (log ++ events) =
      insertions log ++ insertions events :=
  List.filterMap_append

theorem passed_append
    (log events : List (Event ρ))
    (k : Nat) :
    passed (log ++ events) k =
      (passed log k || passed events k) :=
  List.any_append

theorem ended_append
    (log events : List (Event ρ))
    (k : Nat) :
    ended (log ++ events) k =
      (ended log k || ended events k) :=
  List.any_append

/- Events outside of checks say nothing about them. -/
theorem outsideCheck_nil
    {events : List (Event ρ)}
    (h : ∀ e ∈ events, Event.outsideCheck e = true) :
    starts events = [] ∧ insertions events = [] ∧
      ∀ k, passed events k = false := by
  refine ⟨?_, ?_, ?_⟩
  · apply List.filterMap_eq_nil_iff.mpr
    intro e he
    have hOut := h e he
    cases e <;> simp_all [Event.outsideCheck]
  · apply List.filterMap_eq_nil_iff.mpr
    intro e he
    have hOut := h e he
    cases e <;> simp_all [Event.outsideCheck]
  · intro k
    apply List.any_eq_false.mpr
    intro e he
    have hOut := h e he
    cases e <;> simp_all [Event.outsideCheck]

theorem passedWrites_congr
    (cfg : Group ρ)
    {log log' : List (Event ρ)}
    {m : Nat}
    (h : ∀ j, j < m → passed log' j = passed log j) :
    passedWrites cfg log' m = passedWrites cfg log m := by
  unfold passedWrites
  rw [List.flatMap_def, List.flatMap_def]
  refine congrArg List.flatten (List.map_congr_left ?_)
  intro j hj
  rw [h j (List.mem_range.mp hj)]

theorem passedWrites_succ
    (cfg : Group ρ)
    (log : List (Event ρ))
    (m : Nat) :
    passedWrites cfg log (m + 1) =
      passedWrites cfg log m ++
        if passed log m then cfg.writes m else [] := by
  simp [passedWrites, List.range_succ]

------------------------------------------------------------
-- Phases of a Check
------------------------------------------------------------

/- Where a task stands with respect to its check. -/
inductive Phase (ρ : Type) where
| before
| ready
| checking
| inserting (rest : List ρ)
| checked (passed : Bool)
| over
deriving DecidableEq, Repr

def phase : Pc ρ → Phase ρ
| .unborn => .before
| .gap => .before
| .region => .before
| .setSize _ next => phase next
| .setAcquire _ next => phase next
| .setWrite _ next => phase next
| .setRelease next => phase next
| .taskCommit => .before
| .waitPrior => .before
| .checkStart => .ready
| .checking => .checking
| .inserting rest => .inserting rest
| .checked passed => .checked passed
| _ => .over

/- The check has started and not ended. -/
def Phase.busy : Phase ρ → Bool
| .checking => true
| .inserting _ => true
| .checked _ => true
| _ => false

/- The effect is not on a `spec_checked` lock. -/
def Effect.offChecked : Effect → Bool
| .acquire (.specChecked _) => false
| .release (.specChecked _) => false
| _ => true

/- A task's moves, as far as its check goes. -/
inductive CheckMove
    (cfg : Group ρ)
    (k : Nat) :
    Phase ρ → Phase ρ → Effect → List (Event ρ) → Prop where
| stay
    {ph : Phase ρ}
    {effect : Effect}
    {events : List (Event ρ)} :
    effect.offChecked = true →
    (∀ e ∈ events, Event.outsideCheck e = true) →
      CheckMove cfg k ph ph effect events
| leave
    {ph : Phase ρ}
    {effect : Effect}
    {events : List (Event ρ)} :
    effect.offChecked = true →
    (∀ e ∈ events, Event.outsideCheck e = true) →
      CheckMove cfg k ph .over effect events
| main
    {effect : Effect} :
    k = 0 → effect.offChecked = true →
      CheckMove cfg k .before .ready effect []
| spec :
    CheckMove cfg k .before .ready
      (.acquire (.specChecked (k - 1))) []
| start :
    CheckMove cfg k .ready .checking .quiet
      [.checkStarted k]
| conflictFree :
    CheckMove cfg k .checking (.inserting (cfg.writes k))
      .quiet []
| conflict :
    CheckMove cfg k .checking (.checked false) .quiet
      [.checkEnded k false]
| insert
    {range : ρ}
    {rest : List ρ} :
    CheckMove cfg k (.inserting (range :: rest))
      (.inserting rest) .quiet [.inserted k range]
| inserted :
    CheckMove cfg k (.inserting []) (.checked true) .quiet
      [.checkEnded k true]
| signal
    {passed : Bool}
    {events : List (Event ρ)} :
    (∀ e ∈ events, Event.outsideCheck e = true) →
      CheckMove cfg k (.checked passed) .over
        (.release (.specChecked k)) events

theorem TaskMove.check
    {cfg : Group ρ}
    {k psize : Nat}
    {pc : Pc ρ}
    {act : Act}
    {move : Move ρ}
    (h : TaskMove cfg k psize pc act move) :
    CheckMove cfg k (phase pc) (phase move.1) move.2.1
      move.2.2 := by
  cases h
  case insideMain => exact .main ‹_› rfl
  case waitPrior => exact .spec
  case checkStart => exact .start
  case checking => exact .conflictFree
  case insert => exact .insert
  case inserted => exact .inserted
  case passed => exact .signal (by simp)
  case failed => exact .signal (by simp [Event.outsideCheck])
  case fail => exact .conflict
  all_goals
    first
    | exact .stay rfl (by simp [Event.outsideCheck])
    | exact .leave rfl (by simp [Event.outsideCheck])

------------------------------------------------------------
-- The Relay of Checks
------------------------------------------------------------

/-
  The relay the checks run: the phase of every task, the
  locks between them, and the log.
-/
structure Relay (ρ : Type) where
  phases : Nat → Phase ρ
  held : Nat → Bool
  log : List (Event ρ)

def State.relay (s : State ρ) : Relay ρ where
  phases := fun k => phase (s.pc k)
  held := fun i => s.held (.specChecked i)
  log := s.log

/- The locks of the relay after an effect. -/
def checkedAfter
    (held : Nat → Bool) :
    Effect → Nat → Bool
| .acquire (.specChecked i) => Function.update held i true
| .release (.specChecked i) => Function.update held i false
| _ => held

/- A step of the relay: the move of one task. -/
structure RelayStep
    (cfg : Group ρ)
    (r r' : Relay ρ)
    (k : Nat)
    (effect : Effect)
    (events : List (Event ρ)) : Prop where
  move : CheckMove cfg k (r.phases k) (r'.phases k) effect
    events
  others : ∀ j, j ≠ k → r'.phases j = r.phases j
  free : ∀ i, effect = .acquire (.specChecked i) →
    r.held i = false
  held : r'.held = checkedAfter r.held effect
  log : r'.log = r.log ++ events

theorem heldAfter_specChecked
    (held : Lock → Bool)
    (effect : Effect)
    (i : Nat) :
    heldAfter held effect (.specChecked i) =
      checkedAfter (fun i => held (.specChecked i))
        effect i := by
  cases effect with
  | acquire lock =>
      cases lock with
      | specChecked j =>
          by_cases h : i = j <;>
            simp [heldAfter, checkedAfter, h]
      | _ => simp [heldAfter, checkedAfter]
  | release lock =>
      cases lock with
      | specChecked j =>
          by_cases h : i = j <;>
            simp [heldAfter, checkedAfter, h]
      | _ => simp [heldAfter, checkedAfter]
  | _ => rfl

/- Every step of the protocol is a step of the relay. -/
theorem relayStep_of_step
    {cfg : Group ρ}
    {s s' : State ρ}
    {label : Proc × Act}
    (hUnspawned : Unspawned s)
    (h : step cfg s label = some s') :
    ∃ k effect events,
      RelayStep cfg s.relay s'.relay k effect events := by
  cases coreStep_of_step h with
  | moved k act move hLabel hMove hFree hPc hHeld hSize
      hLog =>
      refine ⟨k, move.2.1, move.2.2, ?_, ?_, ?_, ?_, hLog⟩
      · have hSelf : s'.pc k = move.1 := by
          rw [hPc, Function.update_self]
        simp only [State.relay, hSelf]
        exact hMove.check
      · intro j hj
        simp only [State.relay, hPc]
        exact view_other phase rfl hUnspawned hMove hj
      · intro i hi
        exact hFree _ hi
      · funext i
        simp only [State.relay, hHeld]
        exact heldAfter_specChecked _ _ _
  | ended k why hLabel hAlive hPc hHeld hSize hLog =>
      refine ⟨k, .quiet, [], ?_, ?_, ?_, ?_, ?_⟩
      · have hSelf : s'.pc k = .exited why := by
          rw [hPc, Function.update_self]
        simp only [State.relay, hSelf]
        exact .leave rfl (by simp)
      · intro j hj
        simp only [State.relay, hPc,
          Function.update_of_ne hj]
      · simp
      · simp only [State.relay, hHeld]
        rfl
      · simpa [State.relay] using hLog
  | aside hLabel hPc hHeld hSize hLog =>
      have hLocks : s'.relay.held = s.relay.held := by
        funext i
        exact hHeld (.specChecked i) rfl
      rcases hLog with hLog | hLog
      · refine ⟨0, .quiet, [], ?_, ?_, ?_, hLocks, ?_⟩
        · simp only [State.relay, hPc]
          exact .stay rfl (by simp)
        · simp [State.relay, hPc]
        · simp
        · simpa [State.relay] using hLog
      · refine ⟨0, .quiet, _, ?_, ?_, ?_, hLocks, hLog⟩
        · simp only [State.relay, hPc]
          exact .stay rfl (by simp [Event.outsideCheck])
        · simp [State.relay, hPc]
        · simp

------------------------------------------------------------
-- The Baton
------------------------------------------------------------

/-
  Who may run a check: the task that may start next, the
  task that started last, or whoever takes its lock.
-/
inductive Baton where
| next (k : Nat)
| busy (k : Nat)
| free (k : Nat)
deriving DecidableEq, Repr

/- The number of checks started. -/
def Baton.count : Baton → Nat
| .next k => k
| .busy k => k + 1
| .free k => k + 1

/- The insertions made when the baton is where it is. -/
def InsertionsAt
    (cfg : Group ρ)
    (r : Relay ρ) :
    Baton → Prop
| .next k => insertions r.log = passedWrites cfg r.log k
| .free k =>
    insertions r.log = passedWrites cfg r.log (k + 1)
| .busy k =>
    match r.phases k with
    | .checking =>
        insertions r.log = passedWrites cfg r.log k ∧
          passed r.log k = false
    | .inserting rest =>
        insertions r.log ++ rest =
            passedWrites cfg r.log k ++ cfg.writes k ∧
          passed r.log k = false
    | .checked _ =>
        insertions r.log = passedWrites cfg r.log (k + 1) ∧
          ended r.log k = true
    | _ => True

/- The invariant of the relay. -/
structure CheckInv
    (cfg : Group ρ)
    (r : Relay ρ)
    (b : Baton) : Prop where
  starts_eq : starts r.log = List.range b.count
  before : ∀ k, r.phases k = .before → b.count ≤ k
  ready : ∀ k, r.phases k = .ready → b = .next k
  busy : ∀ k, (r.phases k).busy = true → b = .busy k
  locks : ∀ i, r.held i = false → b = .free i
  unpassed : ∀ k, b.count ≤ k → passed r.log k = false
  closed : ∀ k, k < b.count → b ≠ .busy k →
    ended r.log k = true
  inserted : InsertionsAt cfg r b

/-
  The insertions do not change when the log gains no check
  event and the task with the baton stays in its phase or
  leaves.
-/
theorem insertionsAt_mono
    {cfg : Group ρ}
    {r r' : Relay ρ}
    {events : List (Event ρ)}
    {b : Baton}
    (hLog : r'.log = r.log ++ events)
    (hEvents : ∀ e ∈ events, Event.outsideCheck e = true)
    (hPhases : ∀ j, r'.phases j = r.phases j ∨
      r'.phases j = .over)
    (h : InsertionsAt cfg r b) :
    InsertionsAt cfg r' b := by
  rcases outsideCheck_nil hEvents with ⟨-, hIns, hPassed⟩
  have hInsEq : insertions r'.log = insertions r.log := by
    rw [hLog, insertions_append, hIns, List.append_nil]
  have hPassedEq :
      ∀ j, passed r'.log j = passed r.log j := by
    intro j
    rw [hLog, passed_append, hPassed, Bool.or_false]
  have hWrites :
      ∀ m, passedWrites cfg r'.log m =
        passedWrites cfg r.log m :=
    fun m => passedWrites_congr cfg (fun j _ => hPassedEq j)
  cases b with
  | next k =>
      simp only [InsertionsAt, hInsEq, hWrites] at h ⊢
      exact h
  | free k =>
      simp only [InsertionsAt, hInsEq, hWrites] at h ⊢
      exact h
  | busy k =>
      rcases hPhases k with hSame | hOver
      · simp only [InsertionsAt, hSame, hInsEq, hWrites,
          hPassedEq] at h ⊢
        split at h
        · exact h
        · exact h
        · refine ⟨h.1, ?_⟩
          rw [hLog, ended_append, h.2, Bool.true_or]
        · trivial
      · simp [InsertionsAt, hOver]

/- Steps outside of the check keep the baton. -/
theorem checkInv_outside
    {cfg : Group ρ}
    {r r' : Relay ρ}
    {b : Baton}
    {events : List (Event ρ)}
    (hInv : CheckInv cfg r b)
    (hLog : r'.log = r.log ++ events)
    (hEvents : ∀ e ∈ events, Event.outsideCheck e = true)
    (hPhases : ∀ j, r'.phases j = r.phases j ∨
      r'.phases j = .over)
    (hHeld : r'.held = r.held) :
    CheckInv cfg r' b := by
  rcases outsideCheck_nil hEvents with ⟨hStarts, -, hPassed⟩
  have hBack :
      ∀ j, r'.phases j ≠ .over →
        r'.phases j = r.phases j := by
    intro j hNe
    rcases hPhases j with hSame | hOver
    · exact hSame
    · exact absurd hOver hNe
  refine ⟨?_, ?_, ?_, ?_, ?_, ?_, ?_, ?_⟩
  · rw [hLog, starts_append, hStarts, List.append_nil]
    exact hInv.starts_eq
  · intro j hj
    have hSame := hBack j (by simp [hj])
    exact hInv.before j (hSame ▸ hj)
  · intro j hj
    have hSame := hBack j (by simp [hj])
    exact hInv.ready j (hSame ▸ hj)
  · intro j hj
    have hSame := hBack j (by
      intro hOver
      simp [hOver, Phase.busy] at hj)
    exact hInv.busy j (hSame ▸ hj)
  · intro i hi
    exact hInv.locks i (hHeld ▸ hi)
  · intro j hj
    rw [hLog, passed_append, hPassed, Bool.or_false]
    exact hInv.unpassed j hj
  · intro j hj hNe
    rw [hLog, ended_append, hInv.closed j hj hNe,
      Bool.true_or]
  · exact insertionsAt_mono hLog hEvents hPhases hInv.inserted

/- An effect off the `spec_checked` locks keeps them. -/
theorem checkedAfter_off
    (held : Nat → Bool)
    {effect : Effect}
    (h : effect.offChecked = true) :
    checkedAfter held effect = held := by
  cases effect with
  | acquire lock =>
      cases lock <;> simp_all [checkedAfter, Effect.offChecked]
  | release lock =>
      cases lock <;> simp_all [checkedAfter, Effect.offChecked]
  | _ => rfl

/-
  The baton moves with task `k`: no other task had it, and
  what changes is what `k` and its lock say.
-/
theorem checkInv_handover
    {cfg : Group ρ}
    {r r' : Relay ρ}
    {k : Nat}
    {b b' : Baton}
    {events : List (Event ρ)}
    (hInv : CheckInv cfg r b)
    (hLog : r'.log = r.log ++ events)
    (hOthers : ∀ j, j ≠ k → r'.phases j = r.phases j)
    (hOwn : ∀ j, j ≠ k → b ≠ .next j ∧ b ≠ .busy j)
    (hStarts : starts r'.log = List.range b'.count)
    (hBefore : r'.phases k ≠ .before)
    (hCount : ∀ j, j ≠ k → b.count ≤ j → b'.count ≤ j)
    (hReady : r'.phases k = .ready → b' = .next k)
    (hBusy : (r'.phases k).busy = true → b' = .busy k)
    (hLocks : ∀ i, r'.held i = false → b' = .free i)
    (hUnpassed :
      ∀ j, b'.count ≤ j → passed r'.log j = false)
    (hOlder : ∀ j, j < b'.count → b' ≠ .busy j →
      (j < b.count ∧ b ≠ .busy j) ∨ ended r.log j = true)
    (hInserted : InsertionsAt cfg r' b') :
    CheckInv cfg r' b' := by
  refine ⟨hStarts, ?_, ?_, ?_, hLocks, hUnpassed, ?_,
    hInserted⟩
  · intro j hj
    by_cases hSelf : j = k
    · exact absurd (hSelf ▸ hj) hBefore
    · rw [hOthers j hSelf] at hj
      exact hCount j hSelf (hInv.before j hj)
  · intro j hj
    by_cases hSelf : j = k
    · subst hSelf
      exact hReady hj
    · rw [hOthers j hSelf] at hj
      exact absurd (hInv.ready j hj) (hOwn j hSelf).1
  · intro j hj
    by_cases hSelf : j = k
    · subst hSelf
      exact hBusy hj
    · rw [hOthers j hSelf] at hj
      exact absurd (hInv.busy j hj) (hOwn j hSelf).2
  · intro j hj hNe
    have hEnded : ended r.log j = true := by
      rcases hOlder j hj hNe with ⟨hLt, hOld⟩ | hEnded
      · exact hInv.closed j hLt hOld
      · exact hEnded
    rw [hLog, ended_append, hEnded, Bool.true_or]

/- The move of a task inside its own check. -/
theorem checkInv_inside
    {cfg : Group ρ}
    {r r' : Relay ρ}
    {k : Nat}
    {events : List (Event ρ)}
    (hInv : CheckInv cfg r (.busy k))
    (hOthers : ∀ j, j ≠ k → r'.phases j = r.phases j)
    (hHeld : r'.held = r.held)
    (hLog : r'.log = r.log ++ events)
    (hStarts : starts events = [])
    (hPhase : (r'.phases k).busy = true)
    (hPassed : ∀ j, j ≠ k → passed events j = false)
    (hInserted : InsertionsAt cfg r' (.busy k)) :
    CheckInv cfg r' (.busy k) := by
  refine checkInv_handover hInv hLog hOthers ?_ ?_ ?_ ?_ ?_
    ?_ ?_ ?_ ?_ hInserted
  · intro j hj
    simp [hj.symm]
  · rw [hLog, starts_append, hStarts, List.append_nil]
    exact hInv.starts_eq
  · intro hEq
    simp [hEq, Phase.busy] at hPhase
  · intro j _ hj
    exact hj
  · intro hEq
    simp [hEq, Phase.busy] at hPhase
  · intro _
    rfl
  · intro i hi
    exact hInv.locks i (hHeld ▸ hi)
  · intro j hj
    have hNe : j ≠ k := by
      simp only [Baton.count] at hj
      omega
    rw [hLog, passed_append, hInv.unpassed j hj,
      hPassed j hNe]
    rfl
  · intro j hj hNe
    exact .inl ⟨hj, hNe⟩

section Moves

variable {cfg : Group ρ}
variable {r r' : Relay ρ}
variable {k : Nat}

/- MAIN has the baton from the start. -/
theorem checkInv_main
    {effect : Effect}
    (hInv : CheckInv cfg r (.next 0))
    (hNew : r'.phases 0 = .ready)
    (hOthers : ∀ j, j ≠ 0 → r'.phases j = r.phases j)
    (hOff : effect.offChecked = true)
    (hHeld : r'.held = checkedAfter r.held effect)
    (hLog : r'.log = r.log ++ []) :
    CheckInv cfg r' (.next 0) := by
  apply checkInv_handover hInv hLog hOthers
  · intro j hj
    simp [hj.symm]
  · rw [hLog, List.append_nil]
    exact hInv.starts_eq
  · simp [hNew]
  · intro j _ hj
    exact hj
  · intro _
    rfl
  · simp [hNew, Phase.busy]
  · intro i hi
    rw [hHeld, checkedAfter_off _ hOff] at hi
    exact hInv.locks i hi
  · rw [hLog, List.append_nil]
    exact hInv.unpassed
  · intro j hj hNe
    exact .inl ⟨hj, hNe⟩
  · simp only [InsertionsAt, hLog, List.append_nil]
    exact hInv.inserted

/- The next task takes the lock and with it the baton. -/
theorem checkInv_take
    (hInv : CheckInv cfg r (.free (k - 1)))
    (hOld : r.phases k = .before)
    (hNew : r'.phases k = .ready)
    (hOthers : ∀ j, j ≠ k → r'.phases j = r.phases j)
    (hHeld : r'.held = Function.update r.held (k - 1) true)
    (hLog : r'.log = r.log ++ []) :
    CheckInv cfg r' (.next k) := by
  have hCount := hInv.before k hOld
  simp only [Baton.count] at hCount
  have hK : k - 1 + 1 = k := by omega
  apply checkInv_handover hInv hLog hOthers
  · simp
  · rw [hLog, List.append_nil, hInv.starts_eq]
    simp only [Baton.count, hK]
  · simp [hNew]
  · intro j _ hj
    simp only [Baton.count] at hj ⊢
    omega
  · intro _
    rfl
  · simp [hNew, Phase.busy]
  · intro i hi
    rw [hHeld] at hi
    by_cases hEq : i = k - 1
    · simp [hEq] at hi
    · rw [Function.update_of_ne hEq] at hi
      have hSame := hInv.locks i hi
      simp only [Baton.free.injEq] at hSame
      omega
  · intro j hj
    rw [hLog, List.append_nil]
    apply hInv.unpassed j
    simp only [Baton.count] at hj ⊢
    omega
  · intro j hj _
    refine .inl ⟨?_, by simp⟩
    simp only [Baton.count] at hj ⊢
    omega
  · have hIns := hInv.inserted
    simp only [InsertionsAt, hK] at hIns
    simp only [InsertionsAt, hLog, List.append_nil]
    exact hIns

/- The check starts. -/
theorem checkInv_start
    (hInv : CheckInv cfg r (.next k))
    (hNew : r'.phases k = .checking)
    (hOthers : ∀ j, j ≠ k → r'.phases j = r.phases j)
    (hHeld : r'.held = r.held)
    (hLog : r'.log = r.log ++ [.checkStarted k]) :
    CheckInv cfg r' (.busy k) := by
  have hPassed :
      ∀ j, passed r'.log j = passed r.log j := by
    intro j
    rw [hLog, passed_append]
    simp [passed]
  apply checkInv_handover hInv hLog hOthers
  · intro j hj
    simp [hj.symm]
  · rw [hLog, starts_append, hInv.starts_eq]
    simp [starts, Baton.count, List.range_succ]
  · simp [hNew]
  · intro j hj hLe
    simp only [Baton.count] at hLe ⊢
    omega
  · simp [hNew]
  · intro _
    rfl
  · intro i hi
    rw [hHeld] at hi
    exact absurd (hInv.locks i hi) (by simp)
  · intro j hj
    rw [hPassed]
    apply hInv.unpassed j
    simp only [Baton.count] at hj ⊢
    omega
  · intro j hj hNe
    refine .inl ⟨?_, by simp⟩
    have hOther : k ≠ j := by
      simpa using hNe
    simp only [Baton.count] at hj ⊢
    omega
  · have hIns := hInv.inserted
    simp only [InsertionsAt] at hIns
    simp only [InsertionsAt, hNew, hPassed]
    rw [passedWrites_congr cfg (fun j _ => hPassed j),
      hLog, insertions_append]
    refine ⟨?_, hInv.unpassed k (Nat.le_refl k)⟩
    simpa [insertions] using hIns

/- The check finds a conflict and ends. -/
theorem checkInv_conflict
    (hInv : CheckInv cfg r (.busy k))
    (hOld : r.phases k = .checking)
    (hNew : r'.phases k = .checked false)
    (hOthers : ∀ j, j ≠ k → r'.phases j = r.phases j)
    (hHeld : r'.held = r.held)
    (hLog : r'.log = r.log ++ [.checkEnded k false]) :
    CheckInv cfg r' (.busy k) := by
  have hPassed :
      ∀ j, passed r'.log j = passed r.log j := by
    intro j
    rw [hLog, passed_append]
    simp [passed]
  have hIns := hInv.inserted
  simp only [InsertionsAt, hOld] at hIns
  apply checkInv_inside hInv hOthers hHeld hLog rfl
  · simp [hNew, Phase.busy]
  · simp [passed]
  · simp only [InsertionsAt, hNew]
    rw [passedWrites_congr cfg (fun j _ => hPassed j),
      passedWrites_succ, hIns.2, hLog, insertions_append,
      ended_append]
    refine ⟨?_, by simp [ended]⟩
    simpa [insertions] using hIns.1

/- The check finds none and goes on to the insertions. -/
theorem checkInv_conflictFree
    (hInv : CheckInv cfg r (.busy k))
    (hOld : r.phases k = .checking)
    (hNew : r'.phases k = .inserting (cfg.writes k))
    (hOthers : ∀ j, j ≠ k → r'.phases j = r.phases j)
    (hHeld : r'.held = r.held)
    (hLog : r'.log = r.log ++ []) :
    CheckInv cfg r' (.busy k) := by
  have hIns := hInv.inserted
  simp only [InsertionsAt, hOld] at hIns
  apply checkInv_inside hInv hOthers hHeld hLog rfl
  · simp [hNew, Phase.busy]
  · simp [passed]
  · simp only [InsertionsAt, hNew, hLog, List.append_nil]
    exact ⟨congrArg (· ++ cfg.writes k) hIns.1, hIns.2⟩

/- One insertion into the union. -/
theorem checkInv_insert
    {range : ρ}
    {rest : List ρ}
    (hInv : CheckInv cfg r (.busy k))
    (hOld : r.phases k = .inserting (range :: rest))
    (hNew : r'.phases k = .inserting rest)
    (hOthers : ∀ j, j ≠ k → r'.phases j = r.phases j)
    (hHeld : r'.held = r.held)
    (hLog : r'.log = r.log ++ [.inserted k range]) :
    CheckInv cfg r' (.busy k) := by
  have hPassed :
      ∀ j, passed r'.log j = passed r.log j := by
    intro j
    rw [hLog, passed_append]
    simp [passed]
  have hIns := hInv.inserted
  simp only [InsertionsAt, hOld] at hIns
  apply checkInv_inside hInv hOthers hHeld hLog rfl
  · simp [hNew, Phase.busy]
  · simp [passed]
  · simp only [InsertionsAt, hNew, hPassed]
    rw [passedWrites_congr cfg (fun j _ => hPassed j),
      ← hIns.1, hLog, insertions_append]
    exact ⟨by simp [insertions], hIns.2⟩

/- The last insertion is made: the check passed. -/
theorem checkInv_inserted
    (hInv : CheckInv cfg r (.busy k))
    (hOld : r.phases k = .inserting [])
    (hNew : r'.phases k = .checked true)
    (hOthers : ∀ j, j ≠ k → r'.phases j = r.phases j)
    (hHeld : r'.held = r.held)
    (hLog : r'.log = r.log ++ [.checkEnded k true]) :
    CheckInv cfg r' (.busy k) := by
  have hNone :
      ∀ j, j ≠ k →
        passed [(Event.checkEnded k true : Event ρ)] j =
          false := by
    intro j hj
    simp [passed, hj.symm]
  have hIns := hInv.inserted
  simp only [InsertionsAt, hOld, List.append_nil] at hIns
  apply checkInv_inside hInv hOthers hHeld hLog rfl
  · simp [hNew, Phase.busy]
  · exact hNone
  · have hPassed :
        ∀ j, j < k → passed r'.log j = passed r.log j := by
      intro j hj
      rw [hLog, passed_append, hNone j (by omega),
        Bool.or_false]
    have hSelf : passed r'.log k = true := by
      rw [hLog, passed_append]
      simp [passed]
    simp only [InsertionsAt, hNew]
    rw [passedWrites_succ, hSelf,
      passedWrites_congr cfg hPassed, hLog,
      insertions_append, ended_append]
    refine ⟨?_, by simp [ended]⟩
    simpa [insertions] using hIns.1

/- The task releases its lock and with it the baton. -/
theorem checkInv_signal
    {result : Bool}
    {events : List (Event ρ)}
    (hInv : CheckInv cfg r (.busy k))
    (hOld : r.phases k = .checked result)
    (hNew : r'.phases k = .over)
    (hOthers : ∀ j, j ≠ k → r'.phases j = r.phases j)
    (hEvents : ∀ e ∈ events, Event.outsideCheck e = true)
    (hHeld : r'.held = Function.update r.held k false)
    (hLog : r'.log = r.log ++ events) :
    CheckInv cfg r' (.free k) := by
  rcases outsideCheck_nil hEvents with
    ⟨hStarts, hInsNil, hPassedNil⟩
  have hPassed :
      ∀ j, passed r'.log j = passed r.log j := by
    intro j
    rw [hLog, passed_append, hPassedNil, Bool.or_false]
  have hIns := hInv.inserted
  simp only [InsertionsAt, hOld] at hIns
  apply checkInv_handover hInv hLog hOthers
  · intro j hj
    simp [hj.symm]
  · rw [hLog, starts_append, hStarts, List.append_nil]
    exact hInv.starts_eq
  · simp [hNew]
  · intro j _ hj
    exact hj
  · simp [hNew]
  · simp [hNew, Phase.busy]
  · intro i hi
    rw [hHeld] at hi
    by_cases hEq : i = k
    · rw [hEq]
    · rw [Function.update_of_ne hEq] at hi
      exact absurd (hInv.locks i hi) (by simp)
  · intro j hj
    rw [hPassed]
    exact hInv.unpassed j hj
  · intro j hj _
    by_cases hSelf : j = k
    · exact .inr (hSelf ▸ hIns.2)
    · exact .inl ⟨hj, by simpa using Ne.symm hSelf⟩
  · simp only [InsertionsAt]
    rw [passedWrites_congr cfg (fun j _ => hPassed j),
      hLog, insertions_append, hInsNil, List.append_nil]
    exact hIns.1

end Moves

/- One step of the relay. -/
theorem checkInv_step
    {cfg : Group ρ}
    {r r' : Relay ρ}
    {k : Nat}
    {effect : Effect}
    {events : List (Event ρ)}
    {b : Baton}
    (hInv : CheckInv cfg r b)
    (hStep : RelayStep cfg r r' k effect events) :
    ∃ b', CheckInv cfg r' b' := by
  rcases hStep with ⟨hMove, hOthers, hFree, hHeld, hLog⟩
  generalize hOld : r.phases k = ph at hMove
  generalize hNew : r'.phases k = ph' at hMove
  -- a task inside its check has the baton
  have hMine : ph.busy = true → b = .busy k := by
    intro hBusy
    apply hInv.busy k
    rw [hOld]
    exact hBusy
  cases hMove with
  | stay hOff hEvents =>
      refine ⟨b, checkInv_outside hInv hLog hEvents ?_ ?_⟩
      · intro j
        by_cases hj : j = k
        · rw [hj, hNew, hOld]
          exact .inl rfl
        · exact .inl (hOthers j hj)
      · rw [hHeld, checkedAfter_off _ hOff]
  | leave hOff hEvents =>
      refine ⟨b, checkInv_outside hInv hLog hEvents ?_ ?_⟩
      · intro j
        by_cases hj : j = k
        · rw [hj]
          exact .inr hNew
        · exact .inl (hOthers j hj)
      · rw [hHeld, checkedAfter_off _ hOff]
  | main hMain hOff =>
      subst hMain
      have hB : b = .next 0 := by
        have hCount := hInv.before 0 hOld
        cases b <;> simp_all [Baton.count]
      subst hB
      exact ⟨_, checkInv_main hInv hNew hOthers hOff hHeld
        hLog⟩
  | spec =>
      have hB : b = .free (k - 1) :=
        hInv.locks (k - 1) (hFree (k - 1) rfl)
      subst hB
      exact ⟨_, checkInv_take hInv hOld hNew hOthers hHeld
        hLog⟩
  | start =>
      have hB : b = .next k := hInv.ready k hOld
      subst hB
      exact ⟨_, checkInv_start hInv hNew hOthers hHeld hLog⟩
  | conflictFree =>
      cases hMine rfl
      exact ⟨_, checkInv_conflictFree hInv hOld hNew hOthers
        hHeld hLog⟩
  | conflict =>
      cases hMine rfl
      exact ⟨_, checkInv_conflict hInv hOld hNew hOthers
        hHeld hLog⟩
  | insert =>
      cases hMine rfl
      exact ⟨_, checkInv_insert hInv hOld hNew hOthers hHeld
        hLog⟩
  | inserted =>
      cases hMine rfl
      exact ⟨_, checkInv_inserted hInv hOld hNew hOthers
        hHeld hLog⟩
  | signal hEvents =>
      cases hMine rfl
      exact ⟨_, checkInv_signal hInv hOld hNew hOthers
        hEvents hHeld hLog⟩

/- The invariant holds along every run of a group. -/
theorem checkInv_of_reachable
    {cfg : Group ρ}
    {ok : State ρ → Proc × Act → Prop}
    {s : State ρ}
    (h : (protocol cfg).Reachable ok s) :
    ∃ b, CheckInv cfg s.relay b := by
  refine h.invariant (fun s => ∃ b, CheckInv cfg s.relay b)
    ?_ ?_
  · refine ⟨.next 0, rfl, ?_, ?_, ?_, ?_, ?_, ?_, rfl⟩
    · intro k _
      exact Nat.zero_le k
    · intro k hk
      by_cases hMain : k = 0 <;>
        simp_all [State.relay, protocol, State.init, phase]
    · intro k hk
      by_cases hMain : k = 0 <;>
        simp_all [State.relay, protocol, State.init, phase,
          Phase.busy]
    · simp [State.relay, protocol, State.init]
    · intro k _
      rfl
    · intro k hk
      exact absurd hk (Nat.not_lt_zero k)
  · intro s label s' hReach hCase
    rcases hCase with ⟨b, hInv⟩
    intro _ hStep
    rcases relayStep_of_step
      (unspawned_of_reachable hReach) hStep with
      ⟨k, effect, events, hRelay⟩
    exact checkInv_step hInv hRelay

------------------------------------------------------------
-- Serialised Checks
------------------------------------------------------------

/- Only the last check started can be open. -/
theorem baton_of_openCheck
    {cfg : Group ρ}
    {r : Relay ρ}
    {b : Baton}
    {k : Nat}
    (hInv : CheckInv cfg r b)
    (hOpen : openCheck r.log k) :
    b = .busy k := by
  rcases hOpen with ⟨hStarted, hEnded⟩
  rw [hInv.starts_eq, List.mem_range] at hStarted
  by_cases hB : b = .busy k
  · exact hB
  · have hClosed := hInv.closed k hStarted hB
    rw [hEnded] at hClosed
    cases hClosed

/- A step that starts a check is taken with the baton. -/
theorem baton_of_start
    {cfg : Group ρ}
    {r r' : Relay ρ}
    {k i : Nat}
    {effect : Effect}
    {events : List (Event ρ)}
    {b : Baton}
    (hInv : CheckInv cfg r b)
    (hStep : RelayStep cfg r r' k effect events)
    (hStart : i ∈ starts events) :
    b = .next i := by
  have hMove := hStep.move
  generalize hOld : r.phases k = ph at hMove
  generalize hNew : r'.phases k = ph' at hMove
  cases hMove with
  | start =>
      have hEq : i = k := by
        simpa [starts] using hStart
      subst hEq
      exact hInv.ready i hOld
  | stay _ hEvents =>
      simp [(outsideCheck_nil hEvents).1] at hStart
  | leave _ hEvents =>
      simp [(outsideCheck_nil hEvents).1] at hStart
  | signal hEvents =>
      simp [(outsideCheck_nil hEvents).1] at hStart
  | main => simp [starts] at hStart
  | spec => simp [starts] at hStart
  | conflictFree => simp [starts] at hStart
  | conflict => simp [starts] at hStart
  | insert => simp [starts] at hStart
  | inserted => simp [starts] at hStart

/-
  In every run, with failing checks and aborts: at most one
  check is open, checks start in task order without a gap,
  and when task `i` starts its check the insertions made are
  those of the earlier tasks that passed, each complete.
-/
theorem checks_serialised
    (cfg : Group ρ)
    {s : State ρ}
    (h : (protocol cfg).Reachable Machine.anyStep s) :
    (∀ i j, openCheck s.log i → openCheck s.log j → i = j) ∧
      (∃ m, starts s.log = List.range m) ∧
      ∀ label s' i, step cfg s label = some s' →
        starts s'.log = starts s.log ++ [i] →
          starts s.log = List.range i ∧
            insertions s.log = passedWrites cfg s.log i := by
  rcases checkInv_of_reachable h with ⟨b, hInv⟩
  refine ⟨?_, ⟨b.count, hInv.starts_eq⟩, ?_⟩
  · intro i j hI hJ
    have hBi := baton_of_openCheck hInv hI
    have hBj := baton_of_openCheck hInv hJ
    rw [hBi] at hBj
    simpa using hBj
  · intro label s' i hStep hStart
    rcases relayStep_of_step
      (unspawned_of_reachable h) hStep with
      ⟨k, effect, events, hRelay⟩
    have hLog : s'.log = s.log ++ events := hRelay.log
    rw [hLog, starts_append] at hStart
    have hEvents : starts events = [i] :=
      List.append_cancel_left hStart
    have hMem : i ∈ starts events := by
      simp [hEvents]
    have hB := baton_of_start hInv hRelay hMem
    subst hB
    exact ⟨hInv.starts_eq, hInv.inserted⟩

/- A group of two tasks that each write one range. -/
def twoTasks : Group Nat where
  size := 2
  writes := fun k => [k]
  atomicSet := false
  mainLeads := true

/-
  MAIN checks and commits its data, and task 1 is inside its
  check.
-/
theorem checks_serialised_second :
    ∃ s, (protocol twoTasks).Reachable Machine.anyStep s ∧
      insertions s.log = [0] ∧
      openCheck s.log 1 ∧
      ∀ j, openCheck s.log j → j = 1 := by
  have hRun := Machine.exists_reachable_of_run
    (protocol twoTasks) Machine.anyStep (fun _ _ => true)
    (fun _ _ _ => trivial)
    (List.replicate 8 (.task 0, .go) ++
      List.replicate 4 (.task 1, .go) ++
      [(.task 0, .go), (.task 1, .go), (.task 1, .go)])
    (fun s => insertions s.log = [0] ∧
      1 ∈ starts s.log ∧ ended s.log 1 = false)
    (by decide)
  rcases hRun with ⟨s, hReach, hTest⟩
  simp only [decide_eq_true_eq] at hTest
  rcases hTest with ⟨hIns, hStarted, hEnded⟩
  refine ⟨s, hReach, hIns, ⟨hStarted, hEnded⟩, ?_⟩
  intro j hj
  exact (checks_serialised twoTasks hReach).1 j 1 hj
    ⟨hStarted, hEnded⟩

end Cbop
