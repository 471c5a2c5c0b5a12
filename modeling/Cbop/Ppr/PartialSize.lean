import Cbop.Lib.Machine

/-
  `partial_group_set_size` of `bop_ppr_sync.c`, under all
  interleavings of its steps.

  The read of `partial_size` and the comparison come before
  the lock is taken. A call that passed the comparison can
  be overtaken by a call for a smaller size, and then makes
  the group larger again.

  Main declarations:
    * `SizeState`, `sizeMachine`
    * `Settled`
    * `partialSize_shrinks_iff`
-/

namespace Cbop

------------------------------------------------------------
-- The Calls
------------------------------------------------------------

/- Where a task stands in `partial_group_set_size`. -/
inductive SetPc where
| idle
| entered (psize : Nat)
| acquire (psize : Nat)
| write (psize : Nat)
| release
deriving DecidableEq, Repr

/-
  The fields `partial_size` and `lock` of `sync_data`, the
  point of every task, and the sizes asked for so far.
-/
structure SizeState where
  partialSize : Nat
  held : Bool
  point : Nat → SetPc
  requested : List Nat

/- A task starts a call, or takes the next step of one. -/
inductive SizeAct where
| call (psize : Nat)
| go
deriving DecidableEq, Repr

/- `ppr_sync_data_reset`, on what the calls use. -/
def SizeState.reset (groupSize : Nat) : SizeState where
  partialSize := groupSize
  held := false
  point := fun _ => .idle
  requested := []

def SizeState.setPoint
    (s : SizeState)
    (t : Nat)
    (pc : SetPc) :
    SizeState :=
  { s with point := Function.update s.point t pc }

/- The next step of a call that task `t` has made. -/
def setGo
    (s : SizeState)
    (t : Nat) :
    SetPc → Option SizeState
| .idle => none
| .entered psize =>
    -- compared without the lock
    if psize < s.partialSize then
      some (s.setPoint t (.acquire psize))
    else
      some (s.setPoint t .idle)
| .acquire psize =>
    if s.held then none
    else some { s.setPoint t (.write psize) with held := true }
| .write psize =>
    some { s.setPoint t .release with partialSize := psize }
| .release =>
    some { s.setPoint t .idle with held := false }

/- A step of a task; a failed assertion is no step. -/
def sizeStep
    (s : SizeState) :
    Nat × SizeAct → Option SizeState
| (t, .call psize) =>
    if s.point t = .idle ∧ 1 ≤ psize ∧ psize ≤ 100 then
      some { s.setPoint t (.entered psize) with
        requested := s.requested ++ [psize] }
    else
      none
| (t, .go) => setGo s t (s.point t)

def sizeMachine
    (groupSize : Nat) :
    Machine SizeState (Nat × SizeAct) where
  start := .reset groupSize
  step := sizeStep

/- The size a call is going to write. -/
def SetPc.pending : SetPc → Option Nat
| .acquire psize => some psize
| .write psize => some psize
| _ => none

/- The size of a call that has not written it yet. -/
def SetPc.asked : SetPc → Option Nat
| .entered psize => some psize
| pc => pc.pending

/- All calls have returned. -/
def SizeState.AllReturned (s : SizeState) : Prop :=
  ∀ t, s.point t = .idle

/-
  The condition on a step: a task about to write a size
  finds no other task past its comparison that is going to
  write a larger one.
-/
def Settled
    (s : SizeState)
    (label : Nat × SizeAct) : Prop :=
  label.2 = .go →
    ∀ q, s.point label.1 = .write q →
      ∀ u, u ≠ label.1 →
        ∀ p ∈ (s.point u).pending, p ≤ q

------------------------------------------------------------
-- The Steps of a Call
------------------------------------------------------------

/- The steps of task `t`, one constructor for each. -/
inductive SizeMove
    (s : SizeState)
    (t : Nat) :
    SizeAct → SizeState → Prop where
| call
    {psize : Nat} :
    s.point t = .idle →
      SizeMove s t (.call psize)
        { s.setPoint t (.entered psize) with
          requested := s.requested ++ [psize] }
| pass
    {psize : Nat} :
    s.point t = .entered psize → psize < s.partialSize →
      SizeMove s t .go (s.setPoint t (.acquire psize))
| skip
    {psize : Nat} :
    s.point t = .entered psize → s.partialSize ≤ psize →
      SizeMove s t .go (s.setPoint t .idle)
| acquire
    {psize : Nat} :
    s.point t = .acquire psize →
      SizeMove s t .go
        { s.setPoint t (.write psize) with held := true }
| write
    {psize : Nat} :
    s.point t = .write psize →
      SizeMove s t .go
        { s.setPoint t .release with partialSize := psize }
| release :
    s.point t = .release →
      SizeMove s t .go
        { s.setPoint t .idle with held := false }

theorem sizeMove_of_step
    {s s' : SizeState}
    {t : Nat}
    {act : SizeAct}
    (h : sizeStep s (t, act) = some s') :
    SizeMove s t act s' := by
  cases act with
  | call psize =>
      simp only [sizeStep, Option.ite_none_right_eq_some,
        Option.some.injEq] at h
      rcases h with ⟨⟨hIdle, _⟩, rfl⟩
      exact .call hIdle
  | go =>
      change setGo s t (s.point t) = some s' at h
      cases hPoint : s.point t with
      | idle =>
          rw [hPoint] at h
          cases h
      | entered psize =>
          rw [hPoint] at h
          by_cases hLess : psize < s.partialSize
          · simp only [setGo, hLess, if_true,
              Option.some.injEq] at h
            exact h ▸ .pass hPoint hLess
          · simp only [setGo, hLess, if_false,
              Option.some.injEq] at h
            exact h ▸ .skip hPoint (by omega)
      | acquire psize =>
          rw [hPoint] at h
          simp only [setGo, Option.ite_none_left_eq_some,
            Option.some.injEq] at h
          exact h.2 ▸ .acquire hPoint
      | write psize =>
          rw [hPoint] at h
          rw [setGo, Option.some.injEq] at h
          exact h ▸ .write hPoint
      | release =>
          rw [hPoint] at h
          rw [setGo, Option.some.injEq] at h
          exact h ▸ .release hPoint

/- What a step of a call leaves of the state. -/
structure SizeFrame
    (s s' : SizeState)
    (t : Nat) : Prop where
  others : ∀ u, u ≠ t → s'.point u = s.point u
  size : s'.partialSize = s.partialSize ∨
    ∃ q, s.point t = .write q ∧ s'.partialSize = q

theorem SizeMove.frame
    {s s' : SizeState}
    {t : Nat}
    {act : SizeAct}
    (h : SizeMove s t act s') :
    SizeFrame s s' t := by
  constructor
  · intro u hu
    cases h <;>
      exact Function.update_of_ne hu _ _
  · cases h with
    | write hPoint => exact .inr ⟨_, hPoint, rfl⟩
    | _ => exact .inl rfl

------------------------------------------------------------
-- Runs Whose Writes Are Settled
------------------------------------------------------------

/-
  What holds while every write is settled: a pending size is
  no larger than the current one, and every size asked for
  is either reached or still to be written.
-/
structure SizeInv
    (groupSize : Nat)
    (s : SizeState) : Prop where
  source : s.partialSize ∈ groupSize :: s.requested
  bound : s.partialSize ≤ groupSize
  pending : ∀ t, ∀ p ∈ (s.point t).pending,
    p ∈ s.requested ∧ p ≤ s.partialSize
  entered : ∀ t p, s.point t = .entered p →
    p ∈ s.requested
  reached : ∀ p ∈ s.requested,
    s.partialSize ≤ p ∨ ∃ t, p ∈ (s.point t).asked

theorem sizeInv_reset
    (groupSize : Nat) :
    SizeInv groupSize (.reset groupSize) where
  source := by simp [SizeState.reset]
  bound := Nat.le_refl _
  pending := by simp [SizeState.reset, SetPc.pending]
  entered := by simp [SizeState.reset]
  reached := by simp [SizeState.reset]

/-
  The steps that leave the size alone: what the task still
  asks for may only go once the size has reached it.
-/
theorem sizeInv_of_quiet
    {groupSize t : Nat}
    {s s' : SizeState}
    (hInv : SizeInv groupSize s)
    (hOthers : ∀ u, u ≠ t → s'.point u = s.point u)
    (hSize : s'.partialSize = s.partialSize)
    (hMore : s.requested ⊆ s'.requested)
    (hNew : ∀ p ∈ s'.requested,
      p ∈ s.requested ∨ p ∈ (s'.point t).asked)
    (hPending : ∀ p ∈ (s'.point t).pending,
      p ∈ s'.requested ∧ p ≤ s.partialSize)
    (hEntered : ∀ p, s'.point t = .entered p →
      p ∈ s'.requested)
    (hAsked : ∀ p ∈ (s.point t).asked,
      s.partialSize ≤ p ∨ p ∈ (s'.point t).asked) :
    SizeInv groupSize s' := by
  constructor
  · rw [hSize]
    rcases List.mem_cons.mp hInv.source with hEq | hMem
    · exact List.mem_cons.mpr (.inl hEq)
    · exact List.mem_cons.mpr (.inr (hMore hMem))
  · exact hSize ▸ hInv.bound
  · intro u p hp
    rw [hSize]
    by_cases hu : u = t
    · exact hPending p (hu ▸ hp)
    · rw [hOthers u hu] at hp
      have hOld := hInv.pending u p hp
      exact ⟨hMore hOld.1, hOld.2⟩
  · intro u p hp
    by_cases hu : u = t
    · exact hEntered p (hu ▸ hp)
    · rw [hOthers u hu] at hp
      exact hMore (hInv.entered u p hp)
  · intro p hp
    rw [hSize]
    rcases hNew p hp with hOld | hOwn
    · rcases hInv.reached p hOld with hDone | ⟨u, hu⟩
      · exact .inl hDone
      · by_cases hEq : u = t
        · rcases hAsked p (hEq ▸ hu) with hDone | hStill
          · exact .inl hDone
          · exact .inr ⟨t, hStill⟩
        · refine .inr ⟨u, ?_⟩
          rw [hOthers u hEq]
          exact hu
    · exact .inr ⟨t, hOwn⟩

/- A settled write leaves every pending size in bounds. -/
theorem sizeInv_write
    {groupSize t q : Nat}
    {s : SizeState}
    (hInv : SizeInv groupSize s)
    (hPoint : s.point t = .write q)
    (hSettled : ∀ u, u ≠ t →
      ∀ p ∈ (s.point u).pending, p ≤ q) :
    SizeInv groupSize
      { s.setPoint t .release with partialSize := q } := by
  have hOwn := hInv.pending t q (by
    rw [hPoint]
    rfl)
  have hAt : ∀ u, u ≠ t →
      Function.update s.point t .release u = s.point u :=
    fun u hu => Function.update_of_ne hu _ _
  have hSelf :
      Function.update s.point t .release t = .release :=
    Function.update_self _ _ _
  constructor
  · exact List.mem_cons.mpr (.inr hOwn.1)
  · exact Nat.le_trans hOwn.2 hInv.bound
  · intro u p hp
    change p ∈ (Function.update s.point t .release u).pending
      at hp
    by_cases hu : u = t
    · rw [hu, hSelf] at hp
      cases hp
    · rw [hAt u hu] at hp
      exact ⟨(hInv.pending u p hp).1, hSettled u hu p hp⟩
  · intro u p hp
    change Function.update s.point t .release u = _ at hp
    by_cases hu : u = t
    · rw [hu, hSelf] at hp
      cases hp
    · rw [hAt u hu] at hp
      exact hInv.entered u p hp
  · intro p hp
    rcases hInv.reached p hp with hDone | ⟨u, hu⟩
    · exact .inl (Nat.le_trans hOwn.2 hDone)
    · by_cases hEq : u = t
      · rw [hEq, hPoint] at hu
        have hSame : q = p := Option.some.inj hu
        exact .inl (Nat.le_of_eq hSame)
      · refine .inr ⟨u, ?_⟩
        change p ∈
          (Function.update s.point t .release u).asked
        rw [hAt u hEq]
        exact hu

theorem sizeInv_step
    {groupSize t : Nat}
    {s s' : SizeState}
    {act : SizeAct}
    (hInv : SizeInv groupSize s)
    (hSettled : Settled s (t, act))
    (h : SizeMove s t act s') :
    SizeInv groupSize s' := by
  have hOthers := h.frame.others
  cases h with
  | call hPoint =>
      apply sizeInv_of_quiet hInv hOthers rfl
      · exact List.subset_append_left _ _
      · intro p hp
        rcases List.mem_append.mp hp with hp | hp
        · exact .inl hp
        · rw [List.mem_singleton] at hp
          subst hp
          simp [SizeState.setPoint, SetPc.asked]
      · simp [SizeState.setPoint, SetPc.pending]
      · intro p hp
        simp only [SizeState.setPoint,
          Function.update_self, SetPc.entered.injEq] at hp
        simp [hp]
      · simp [hPoint, SetPc.asked, SetPc.pending]
  | pass hPoint hLess =>
      have hAsked := hInv.entered t _ hPoint
      apply sizeInv_of_quiet hInv hOthers rfl
        (fun _ hp => hp) (fun _ hp => .inl hp)
      · intro p hp
        simp only [SizeState.setPoint, Function.update_self,
          SetPc.pending, Option.mem_some_iff] at hp
        subst hp
        exact ⟨hAsked, Nat.le_of_lt hLess⟩
      · simp [SizeState.setPoint]
      · simp [hPoint, SizeState.setPoint, SetPc.asked,
          SetPc.pending]
  | skip hPoint hMore =>
      apply sizeInv_of_quiet hInv hOthers rfl
        (fun _ hp => hp) (fun _ hp => .inl hp)
      · simp [SizeState.setPoint, SetPc.pending]
      · simp [SizeState.setPoint]
      · intro p hp
        rw [hPoint] at hp
        have hSame := Option.some.inj hp
        exact .inl (hSame ▸ hMore)
  | acquire hPoint =>
      have hOwn := hInv.pending t _ (by
        rw [hPoint]
        rfl)
      apply sizeInv_of_quiet hInv hOthers rfl
        (fun _ hp => hp) (fun _ hp => .inl hp)
      · intro p hp
        simp only [SizeState.setPoint, Function.update_self,
          SetPc.pending, Option.mem_some_iff] at hp
        exact hp ▸ hOwn
      · simp [SizeState.setPoint]
      · simp [hPoint, SizeState.setPoint, SetPc.asked,
          SetPc.pending]
  | write hPoint =>
      exact sizeInv_write hInv hPoint
        (hSettled rfl _ hPoint)
  | release hPoint =>
      apply sizeInv_of_quiet hInv hOthers rfl
        (fun _ hp => hp) (fun _ hp => .inl hp)
      · simp [SizeState.setPoint, SetPc.pending]
      · simp [SizeState.setPoint]
      · simp [hPoint, SetPc.asked, SetPc.pending]

/- With its writes settled the size never grows. -/
theorem size_le_of_step
    {groupSize t : Nat}
    {s s' : SizeState}
    {act : SizeAct}
    (hInv : SizeInv groupSize s)
    (h : SizeMove s t act s') :
    s'.partialSize ≤ s.partialSize := by
  rcases h.frame.size with hSame | ⟨q, hPoint, hSize⟩
  · exact Nat.le_of_eq hSame
  · have hOwn := hInv.pending t q (by
      rw [hPoint]
      rfl)
    exact hSize ▸ hOwn.2

/- When nobody is in a call the least size is reached. -/
theorem SizeInv.least
    {groupSize : Nat}
    {s : SizeState}
    (hInv : SizeInv groupSize s)
    (hReturned : s.AllReturned) :
    (groupSize :: s.requested).min? =
      some s.partialSize := by
  rw [List.min?_eq_some_iff]
  refine ⟨hInv.source, ?_⟩
  intro p hp
  rcases List.mem_cons.mp hp with rfl | hp
  · exact hInv.bound
  · rcases hInv.reached p hp with hDone | ⟨t, ht⟩
    · exact hDone
    · rw [hReturned t] at ht
      cases ht

------------------------------------------------------------
-- Runs with an Overtaken Call
------------------------------------------------------------

/-
  A task that is going to write a size above the current one
  makes the size grow before it returns, if no other task
  did so before.
-/
theorem grows_of_overtaken
    {groupSize u p : Nat}
    {trace : List (Nat × SizeAct)}
    {s sEnd : SizeState}
    (hEnd : (sizeMachine groupSize).exec s trace = some sEnd)
    (hReturned : sEnd.AllReturned)
    (hPending : p ∈ (s.point u).pending)
    (hAbove : s.partialSize < p) :
    ∃ t i t', (sizeMachine groupSize).Takes s trace t i t' ∧
      t.partialSize < t'.partialSize := by
  induction trace generalizing s with
  | nil =>
      rw [Machine.exec_nil, Option.some.injEq] at hEnd
      rw [hEnd, hReturned u] at hPending
      cases hPending
  | cons label rest ih =>
      rcases Machine.exec_cons_eq_some.mp hEnd with
        ⟨s', hStep, hRest⟩
      rcases label with ⟨v, act⟩
      have hMove := sizeMove_of_step hStep
      by_cases hGrows : s.partialSize < s'.partialSize
      · exact ⟨s, (v, act), s', Machine.takes_head hStep rest,
          hGrows⟩
      · have hStill : p ∈ (s'.point u).pending := by
          by_cases hu : u = v
          · subst hu
            cases hMove with
            | call hPoint =>
                rw [hPoint] at hPending
                cases hPending
            | pass hPoint =>
                rw [hPoint] at hPending
                cases hPending
            | skip hPoint =>
                rw [hPoint] at hPending
                cases hPending
            | acquire hPoint =>
                rw [hPoint] at hPending
                simpa [SizeState.setPoint,
                  SetPc.pending] using hPending
            | write hPoint =>
                rw [hPoint] at hPending
                have hSame := Option.some.inj hPending
                exact absurd (hSame ▸ hAbove) hGrows
            | release hPoint =>
                rw [hPoint] at hPending
                cases hPending
          · rw [hMove.frame.others u hu]
            exact hPending
        rcases ih hRest hStill (by omega) with
          ⟨t, i, t', hTakes, hLater⟩
        exact ⟨t, i, t', Machine.takes_tail hStep hTakes,
          hLater⟩

/- No step of the trace makes the size larger. -/
def NeverGrows
    (groupSize : Nat)
    (trace : List (Nat × SizeAct)) :
    Prop :=
  ∀ s i s',
    (sizeMachine groupSize).Takes (.reset groupSize)
      trace s i s' →
    s'.partialSize ≤ s.partialSize

/- Every write of the trace is settled. -/
def AllSettled
    (groupSize : Nat)
    (trace : List (Nat × SizeAct)) :
    Prop :=
  ∀ s i s',
    (sizeMachine groupSize).Takes (.reset groupSize)
      trace s i s' →
    Settled s i

/- A size that never grows is written by settled writes. -/
theorem settled_of_neverGrows
    {groupSize : Nat}
    {trace : List (Nat × SizeAct)}
    {s0 sEnd : SizeState}
    (hEnd :
      (sizeMachine groupSize).exec s0 trace = some sEnd)
    (hReturned : sEnd.AllReturned)
    (hGrows : ∀ s i s',
      (sizeMachine groupSize).Takes s0 trace s i s' →
        s'.partialSize ≤ s.partialSize) :
    ∀ s i s',
      (sizeMachine groupSize).Takes s0 trace s i s' →
        Settled s i := by
  induction trace generalizing s0 with
  | nil =>
      intro s i s' hTakes
      exact absurd hTakes Machine.not_takes_nil
  | cons label rest ih =>
      rcases Machine.exec_cons_eq_some.mp hEnd with
        ⟨s1, hStep, hRest⟩
      have hTail : ∀ s i s',
          (sizeMachine groupSize).Takes s1 rest s i s' →
            s'.partialSize ≤ s.partialSize :=
        fun s i s' h =>
          hGrows s i s' (Machine.takes_tail hStep h)
      intro s i s' hTakes
      rcases hTakes with ⟨s2, hStep2, hHere | hLater⟩
      · -- the first step: an overtaken call would write later
        rcases hHere with ⟨rfl, rfl, rfl⟩
        rcases i with ⟨t, act⟩
        intro hGo q hPoint u hu p hp
        by_contra hAbove
        have hMove := sizeMove_of_step hStep
        have hSize : s1.partialSize = q := by
          change act = .go at hGo
          subst hGo
          change s.point t = .write q at hPoint
          cases hMove <;> simp_all
        have hStill : p ∈ (s1.point u).pending := by
          rw [hMove.frame.others u hu]
          exact hp
        rcases grows_of_overtaken hRest hReturned hStill
            (by omega) with ⟨t1, i1, t1', hTakes1, hLess⟩
        exact absurd (hTail t1 i1 t1' hTakes1) (by omega)
      · have hEq : s2 = s1 :=
          Option.some.inj (hStep2.symm.trans hStep)
        exact ih hRest hTail s i s' (hEq ▸ hLater)

/-
  While every write is settled the size never grows; and a
  run whose calls have all returned leaves the least of the
  group size and the sizes asked for, without ever growing,
  exactly if every write was settled.
-/
theorem partialSize_shrinks_iff
    {groupSize : Nat}
    {trace : List (Nat × SizeAct)}
    {s : SizeState}
    (hRun : (sizeMachine groupSize).exec
      (.reset groupSize) trace = some s) :
    (AllSettled groupSize trace →
      NeverGrows groupSize trace) ∧
    (s.AllReturned →
      (NeverGrows groupSize trace ∧
          (groupSize :: s.requested).min? =
            some s.partialSize ↔
        AllSettled groupSize trace)) := by
  have hInv : AllSettled groupSize trace →
      NeverGrows groupSize trace ∧ SizeInv groupSize s := by
    intro hSettled
    rcases Machine.exec_invariant
        (M := sizeMachine groupSize) (SizeInv groupSize)
        (fun s i s' hInv hOk hStep =>
          sizeInv_step hInv hOk (sizeMove_of_step hStep))
        (sizeInv_reset groupSize) hSettled with
      ⟨hBefore, hAfter⟩
    refine ⟨?_, hAfter s hRun⟩
    intro t i t' hTakes
    exact size_le_of_step (hBefore t hTakes.visits.1)
      (sizeMove_of_step hTakes.step_eq)
  refine ⟨fun hSettled => (hInv hSettled).1, ?_⟩
  intro hReturned
  constructor
  · intro h
    exact settled_of_neverGrows hRun hReturned h.1
  · intro hSettled
    rcases hInv hSettled with ⟨hGrows, hEnd⟩
    exact ⟨hGrows, hEnd.least hReturned⟩

/- Two tasks that ask for one and for two tasks. -/
def overtakenCalls : List (Nat × SizeAct) :=
  [(1, .call 1), (2, .call 2), (1, .go), (2, .go),
    (1, .go), (1, .go), (1, .go), (2, .go), (2, .go),
    (2, .go)]

/-
  Both compare with three; task 1 writes one, and then task
  2 writes two.
-/
theorem overtakenCalls_run :
    ∃ s, (sizeMachine 3).exec (.reset 3) overtakenCalls =
        some s ∧
      s.AllReturned ∧ s.requested = [1, 2] ∧
      s.partialSize = 2 ∧
      ¬NeverGrows 3 overtakenCalls := by
  refine ⟨_, rfl, ?_, rfl, rfl, ?_⟩
  · intro t
    by_cases h1 : t = 1
    · subst h1
      rfl
    · by_cases h2 : t = 2
      · subst h2
        rfl
      · simp [SizeState.setPoint, SizeState.reset, h1, h2]
  · intro hNever
    have hWrite := hNever _ _ _
      (Machine.takes_tail rfl (Machine.takes_tail rfl
        (Machine.takes_tail rfl (Machine.takes_tail rfl
        (Machine.takes_tail rfl (Machine.takes_tail rfl
        (Machine.takes_tail rfl (Machine.takes_tail rfl
        (Machine.takes_head rfl _)))))))))
    exact absurd hWrite (by decide)

/- Such a run ends above the least size asked for. -/
theorem overtakenCalls_not_least :
    ∃ s, (sizeMachine 3).exec (.reset 3) overtakenCalls =
        some s ∧
      s.AllReturned ∧
      ¬(NeverGrows 3 overtakenCalls ∧
        (3 :: s.requested).min? = some s.partialSize) ∧
      (3 :: s.requested).min? ≠ some s.partialSize := by
  rcases overtakenCalls_run with
    ⟨s, hRun, hReturned, hRequested, hSize, hGrows⟩
  refine ⟨s, hRun, hReturned, fun h => hGrows h.1, ?_⟩
  rw [hRequested, hSize]
  decide

/- Its second write is not settled. -/
theorem partialSize_shrinks_iff_overtaken :
    ¬AllSettled 3 overtakenCalls := by
  rcases overtakenCalls_run with ⟨s, hRun, -, -, -, hGrows⟩
  intro hSettled
  exact hGrows ((partialSize_shrinks_iff hRun).1 hSettled)

end Cbop
