import Cbop.Ppr.Checks

/-
  What a free `data_committed` lock means.

  The lock of a task is released by the task itself, after
  its data commit, its group commit or its abort, and given
  back by its predecessor, who took it free. So whoever
  acquires it knows that the task has signalled.

  Main declarations:
    * `PointOk`
    * `SignalInv`, `signalInv_of_reachable`
-/

namespace Cbop

variable {ρ : Type}

/- What the log says when task `k` stands at a point. -/
def PointOk
    (log : List (Event ρ))
    (k : Nat) :
    Pc ρ → Prop
| .setSize _ next => PointOk log k next
| .setAcquire _ next => PointOk log k next
| .setWrite _ next => PointOk log k next
| .setRelease next => PointOk log k next
| .abortSignal => Event.aborted k ∈ log
| .signalCommit => Event.dataCommitted k ∈ log
| .groupSignal => Event.groupCommitted k ∈ log
| .waitNextRelease => Event.signalled (k + 1) ∈ log
| .waitGroup i => ∀ j, j < i → Event.signalled j ∈ log
| .waitGroupAcquire i =>
    ∀ j, j < i → Event.signalled j ∈ log
| _ => True

theorem pointOk_append
    {log : List (Event ρ)}
    {k : Nat}
    {pc : Pc ρ}
    (h : PointOk log k pc)
    (events : List (Event ρ)) :
    PointOk (log ++ events) k pc := by
  induction pc with
  | setSize p next ih => exact ih h
  | setAcquire p next ih => exact ih h
  | setWrite p next ih => exact ih h
  | setRelease next ih => exact ih h
  | abortSignal => exact List.mem_append_left _ h
  | signalCommit => exact List.mem_append_left _ h
  | groupSignal => exact List.mem_append_left _ h
  | waitNextRelease => exact List.mem_append_left _ h
  | waitGroup i =>
      intro j hj
      exact List.mem_append_left _ (h j hj)
  | waitGroupAcquire i =>
      intro j hj
      exact List.mem_append_left _ (h j hj)
  | _ => trivial

/- A move keeps what the log says about its task. -/
theorem TaskMove.pointOk
    {cfg : Group ρ}
    {k psize : Nat}
    {pc : Pc ρ}
    {act : Act}
    {move : Move ρ}
    {log : List (Event ρ)}
    (h : TaskMove cfg k psize pc act move)
    (hPoint : PointOk log k pc)
    (hFree : ∀ i, move.2.1 = .acquire (.dataCommitted i) →
      Event.signalled i ∈ log) :
    PointOk (log ++ move.2.2) k move.1 := by
  have hKeep := pointOk_append hPoint move.2.2
  cases h
  case waitNext =>
    exact List.mem_append_left _ (hFree _ rfl)
  case waitGroupAcquire i =>
    intro j hj
    by_cases hLast : j = i
    · subst hLast
      exact List.mem_append_left _ (hFree _ rfl)
    · exact hKeep j (by omega)
  case outside => simp [PointOk]
  case failed => simp [PointOk]
  case specAbort => simp [PointOk]
  case dataCommit => simp [PointOk]
  case groupCommit => simp [PointOk]
  case last => simp [PointOk]
  all_goals first | exact hKeep | trivial

/- Only tasks that signalled have their lock released. -/
theorem TaskMove.releases
    {cfg : Group ρ}
    {k psize i : Nat}
    {pc : Pc ρ}
    {act : Act}
    {move : Move ρ}
    {log : List (Event ρ)}
    (h : TaskMove cfg k psize pc act move)
    (hPoint : PointOk log k pc)
    (hRelease : move.2.1 = .release (.dataCommitted i)) :
    Event.signalled i ∈ log ++ move.2.2 := by
  cases h <;> simp at hRelease
  case waitNextRelease =>
    subst hRelease
    exact List.mem_append_left _ hPoint
  all_goals
    subst hRelease
    simp

/- A task signals after a commit or an abort. -/
theorem TaskMove.signals
    {cfg : Group ρ}
    {k psize i : Nat}
    {pc : Pc ρ}
    {act : Act}
    {move : Move ρ}
    {log : List (Event ρ)}
    (h : TaskMove cfg k psize pc act move)
    (hPoint : PointOk log k pc)
    (hSignal : Event.signalled i ∈ move.2.2) :
    i = k ∧
      (Event.dataCommitted k ∈ log ∨
        Event.groupCommitted k ∈ log ∨
        Event.aborted k ∈ log) := by
  cases h <;> simp at hSignal
  case abortSignal =>
    exact ⟨hSignal, .inr (.inr hPoint)⟩
  case signalCommit => exact ⟨hSignal, .inl hPoint⟩
  case groupSignal => exact ⟨hSignal, .inr (.inl hPoint)⟩

/- MAIN does not leave when it aborts. -/
theorem TaskMove.aborts
    {cfg : Group ρ}
    {k psize i : Nat}
    {pc : Pc ρ}
    {act : Act}
    {move : Move ρ}
    (h : TaskMove cfg k psize pc act move)
    (hAborted : Event.aborted i ∈ move.2.2) :
    i ≠ 0 := by
  cases h <;> simp_all

/- The invariant of the `data_committed` locks. -/
structure SignalInv (s : State ρ) : Prop where
  free : ∀ i, s.held (.dataCommitted i) = false →
    Event.signalled i ∈ s.log
  point : ∀ k, PointOk s.log k (s.pc k)
  cause : ∀ k, Event.signalled k ∈ s.log →
    Event.dataCommitted k ∈ s.log ∨
      Event.groupCommitted k ∈ s.log ∨
      Event.aborted k ∈ s.log
  main : Event.aborted 0 ∉ s.log

/- A lock is free because it was released now or before. -/
theorem free_of_heldAfter
    {held : Lock → Bool}
    {effect : Effect}
    {lock : Lock}
    (h : heldAfter held effect lock = false) :
    effect = .release lock ∨ held lock = false := by
  cases effect with
  | acquire other =>
      by_cases hEq : lock = other
      · simp [heldAfter, hEq] at h
      · right
        rwa [heldAfter, Function.update_of_ne hEq] at h
  | release other =>
      by_cases hEq : lock = other
      · left
        rw [hEq]
      · right
        rwa [heldAfter, Function.update_of_ne hEq] at h
  | _ => exact .inr h

/- The cause of a signal stays in the log. -/
theorem cause_append
    {log : List (Event ρ)}
    {k : Nat}
    (h : Event.dataCommitted k ∈ log ∨
      Event.groupCommitted k ∈ log ∨
      Event.aborted k ∈ log)
    (events : List (Event ρ)) :
    Event.dataCommitted k ∈ log ++ events ∨
      Event.groupCommitted k ∈ log ++ events ∨
      Event.aborted k ∈ log ++ events := by
  simp only [List.mem_append]
  rcases h with h | h | h
  · exact .inl (.inl h)
  · exact .inr (.inl (.inl h))
  · exact .inr (.inr (.inl h))

theorem signalInv_move
    {cfg : Group ρ}
    {s s' : State ρ}
    {k : Nat}
    {act : Act}
    {move : Move ρ}
    (hInv : SignalInv s)
    (hMove : TaskMove cfg k s.partialSize (s.pc k) act move)
    (hFree : ∀ lock, move.2.1 = .acquire lock →
      s.held lock = false)
    (hPc : s'.pc =
      Function.update (pcAfter s.pc k move.2.1) k move.1)
    (hHeld : s'.held = heldAfter s.held move.2.1)
    (hLog : s'.log = s.log ++ move.2.2) :
    SignalInv s' := by
  refine ⟨?_, ?_, ?_, ?_⟩
  · intro i hi
    rw [hHeld] at hi
    rw [hLog]
    rcases free_of_heldAfter hi with hRelease | hOld
    · exact hMove.releases (hInv.point k) hRelease
    · exact List.mem_append_left _ (hInv.free i hOld)
  · intro j
    rw [hPc, hLog]
    by_cases hSelf : j = k
    · subst hSelf
      rw [Function.update_self]
      apply hMove.pointOk (hInv.point j)
      intro i hi
      exact hInv.free i (hFree _ hi)
    · rw [Function.update_of_ne hSelf]
      unfold pcAfter
      split
      · by_cases hChild : j = k + 1
        · rw [hChild, Function.update_self]
          trivial
        · rw [Function.update_of_ne hChild]
          exact pointOk_append (hInv.point j) _
      · exact pointOk_append (hInv.point j) _
  · intro i hi
    rw [hLog, List.mem_append] at hi
    rw [hLog]
    rcases hi with hi | hi
    · exact cause_append (hInv.cause i hi) _
    · rcases hMove.signals (hInv.point k) hi with
        ⟨rfl, hCause⟩
      exact cause_append hCause _
  · intro hMain
    rw [hLog, List.mem_append] at hMain
    rcases hMain with hMain | hMain
    · exact hInv.main hMain
    · exact hMove.aborts hMain rfl

theorem signalInv_step
    {cfg : Group ρ}
    {s s' : State ρ}
    {label : Proc × Act}
    (hInv : SignalInv s)
    (h : step cfg s label = some s') :
    SignalInv s' := by
  cases coreStep_of_step h with
  | moved k act move hLabel hMove hFree hPc hHeld hSize
      hLog =>
      exact signalInv_move hInv hMove hFree hPc hHeld hLog
  | ended k why hLabel hAlive hPc hHeld hSize hLog =>
      refine ⟨?_, ?_, ?_, ?_⟩
      · intro i hi
        rw [hLog]
        exact hInv.free i (hHeld ▸ hi)
      · intro j
        rw [hPc, hLog]
        by_cases hSelf : j = k
        · subst hSelf
          rw [Function.update_self]
          trivial
        · rw [Function.update_of_ne hSelf]
          exact hInv.point j
      · rw [hLog]
        exact hInv.cause
      · rw [hLog]
        exact hInv.main
  | aside hLabel hPc hHeld hSize hLog =>
      rcases log_of_aside hLog with ⟨events, hEvents, hUndy⟩
      have hNone :
          ∀ i, Event.signalled i ∉ events ∧
            Event.aborted i ∉ events := by
        intro i
        constructor
        · intro hMem
          cases hUndy _ hMem
        · intro hMem
          cases hUndy _ hMem
      refine ⟨?_, ?_, ?_, ?_⟩
      · intro i hi
        rw [hHeld _ rfl] at hi
        rw [hEvents]
        exact List.mem_append_left _ (hInv.free i hi)
      · intro j
        rw [hPc, hEvents]
        exact pointOk_append (hInv.point j) _
      · intro i hi
        rw [hEvents, List.mem_append] at hi
        rw [hEvents]
        rcases hi with hi | hi
        · exact cause_append (hInv.cause i hi) _
        · exact absurd hi (hNone i).1
      · intro hMain
        rw [hEvents, List.mem_append] at hMain
        rcases hMain with hMain | hMain
        · exact hInv.main hMain
        · exact (hNone 0).2 hMain

theorem signalInv_of_reachable
    {cfg : Group ρ}
    {ok : State ρ → Proc × Act → Prop}
    {s : State ρ}
    (h : (protocol cfg).Reachable ok s) :
    SignalInv s := by
  apply h.invariant SignalInv
  · change SignalInv (State.init cfg)
    refine ⟨?_, ?_, ?_, by simp [State.init]⟩
    · intro i hi
      simp [State.init] at hi
    · intro k
      by_cases hMain : k = 0 <;>
        simp [State.init, hMain, PointOk]
    · intro k hk
      simp [State.init] at hk
  · intro s label s' _ hInv _ hStep
    exact signalInv_step hInv hStep

end Cbop
