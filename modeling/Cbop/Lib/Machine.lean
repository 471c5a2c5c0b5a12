import Mathlib.Tactic.Common

/-
  Labelled transition systems given by a partial step
  function, their reachable states under a condition on the
  steps taken, and the invariant rule.

  Main declarations:
    * `Machine.Reachable`
    * `Machine.Reachable.invariant`
    * `Machine.exists_reachable_of_run`,
      `Machine.exists_reachable_of_run_within`
    * `Machine.exec`, `Machine.Takes`, `Machine.Visits`
    * `Machine.takes_of_run`
    * `Machine.exec_invariant`
    * `Machine.exec_length_le`
    * `Machine.withData`
    * `Machine.exec_map`
-/

/- A start state and a partial step for every label. -/
structure Machine (σ ι : Type) where
  start : σ
  step : σ → ι → Option σ

namespace Machine

variable {σ ι δ : Type}

/-
  The states reached by steps that all meet `ok`, a
  condition on the state before the step and its label.
-/
inductive Reachable
    (M : Machine σ ι)
    (ok : σ → ι → Prop) :
    σ → Prop where
| start : Reachable M ok M.start
| step
    {s s' : σ}
    {i : ι} :
    Reachable M ok s → ok s i → M.step s i = some s' →
      Reachable M ok s'

/- The condition every step meets. -/
def anyStep : σ → ι → Prop :=
  fun _ _ => True

/- An invariant holds in every reachable state. -/
theorem Reachable.invariant
    {M : Machine σ ι}
    {ok : σ → ι → Prop}
    (inv : σ → Prop)
    (hStart : inv M.start)
    (hStep : ∀ s i s', Reachable M ok s → inv s →
      ok s i → M.step s i = some s' → inv s')
    {s : σ}
    (h : Reachable M ok s) :
    inv s := by
  induction h with
  | start => exact hStart
  | step hReach hOk hEq ih =>
      exact hStep _ _ _ hReach ih hOk hEq

/- A weaker condition reaches at least the same states. -/
theorem Reachable.mono
    {M : Machine σ ι}
    {ok ok' : σ → ι → Prop}
    (hOk : ∀ s i, ok s i → ok' s i)
    {s : σ}
    (h : Reachable M ok s) :
    Reachable M ok' s := by
  induction h with
  | start => exact .start
  | step _ hStep hEq ih =>
      exact .step ih (hOk _ _ hStep) hEq

/- Every reachable state is reachable by any steps. -/
theorem Reachable.any
    {M : Machine σ ι}
    {ok : σ → ι → Prop}
    {s : σ}
    (h : Reachable M ok s) :
    Reachable M anyStep s :=
  h.mono (fun _ _ _ => trivial)

------------------------------------------------------------
-- Concrete Runs
------------------------------------------------------------

/- Run a list of labels, while every step meets `ok`. -/
def run
    (M : Machine σ ι)
    (ok : σ → ι → Bool)
    (s : σ) :
    List ι → Option σ
| [] => some s
| i :: rest =>
    if ok s i then
      (M.step s i).bind (fun s' => M.run ok s' rest)
    else
      none

theorem reachable_of_run
    {M : Machine σ ι}
    {ok : σ → ι → Prop}
    {test : σ → ι → Bool}
    (hTest : ∀ s i, test s i = true → ok s i)
    (trace : List ι)
    {s s' : σ}
    (hReach : Reachable M ok s)
    (h : M.run test s trace = some s') :
    Reachable M ok s' := by
  induction trace generalizing s with
  | nil =>
      have hEq : s = s' := by
        simpa [run] using h
      exact hEq ▸ hReach
  | cons i rest ih =>
      unfold run at h
      by_cases hOk : test s i = true
      · simp only [hOk, if_true,
          Option.bind_eq_some_iff] at h
        rcases h with ⟨next, hStep, hRest⟩
        exact ih
          (.step hReach (hTest s i hOk) hStep) hRest
      · simp [hOk] at h

/-
  A run that ends in a state with a property shows that such
  a state is reachable.
-/
theorem exists_reachable_of_run
    (M : Machine σ ι)
    (ok : σ → ι → Prop)
    (test : σ → ι → Bool)
    (hTest : ∀ s i, test s i = true → ok s i)
    (trace : List ι)
    (p : σ → Bool)
    (h : (M.run test M.start trace).any p = true) :
    ∃ s, Reachable M ok s ∧ p s = true := by
  cases hRun : M.run test M.start trace with
  | none => simp [hRun] at h
  | some s =>
      refine ⟨s, reachable_of_run hTest trace .start hRun, ?_⟩
      simpa [hRun] using h

/-
  As `exists_reachable_of_run`, with a test that shows the
  condition only in states that meet an invariant.
-/
theorem exists_reachable_of_run_within
    (M : Machine σ ι)
    (ok : σ → ι → Prop)
    (test : σ → ι → Bool)
    (inv : σ → Prop)
    (hInv : ∀ s, Reachable M ok s → inv s)
    (hTest : ∀ s i, inv s → test s i = true → ok s i)
    (trace : List ι)
    (p : σ → Bool)
    (h : (M.run test M.start trace).any p = true) :
    ∃ s, Reachable M ok s ∧ p s = true := by
  have hRuns :
      ∀ (labels : List ι) s s', Reachable M ok s →
        M.run test s labels = some s' →
          Reachable M ok s' := by
    intro labels
    induction labels with
    | nil =>
        intro s s' hReach hRun
        have hEq : s = s' := by
          simpa [run] using hRun
        exact hEq ▸ hReach
    | cons i rest ih =>
        intro s s' hReach hRun
        unfold run at hRun
        by_cases hOk : test s i = true
        · simp only [hOk, if_true,
            Option.bind_eq_some_iff] at hRun
          rcases hRun with ⟨next, hStep, hRest⟩
          have hNext : Reachable M ok next :=
            .step hReach
              (hTest s i (hInv s hReach) hOk) hStep
          exact ih next s' hNext hRest
        · simp [hOk] at hRun
  cases hRun : M.run test M.start trace with
  | none => simp [hRun] at h
  | some s =>
      refine ⟨s, hRuns trace _ s .start hRun, ?_⟩
      simpa [hRun] using h

------------------------------------------------------------
-- The Steps of a Trace
------------------------------------------------------------

/- The state after a list of labels. -/
def exec
    (M : Machine σ ι)
    (s : σ) :
    List ι → Option σ
| [] => some s
| i :: rest => (M.step s i).bind (fun s' => M.exec s' rest)

/- A trace from `s` takes the step labelled `i` from `t`. -/
def Takes
    (M : Machine σ ι)
    (s : σ) :
    List ι → σ → ι → σ → Prop
| [], _, _, _ => False
| j :: rest, t, i, t' =>
    ∃ s', M.step s j = some s' ∧
      ((t = s ∧ i = j ∧ t' = s') ∨ M.Takes s' rest t i t')

@[simp] theorem exec_nil
    (M : Machine σ ι)
    (s : σ) :
    M.exec s [] = some s := rfl

theorem exec_cons_eq_some
    {M : Machine σ ι}
    {s t : σ}
    {i : ι}
    {rest : List ι} :
    M.exec s (i :: rest) = some t ↔
      ∃ s', M.step s i = some s' ∧ M.exec s' rest = some t :=
  Option.bind_eq_some_iff

@[simp] theorem not_takes_nil
    {M : Machine σ ι}
    {s t t' : σ}
    {i : ι} :
    ¬M.Takes s [] t i t' :=
  id

theorem Takes.step_eq
    {M : Machine σ ι}
    {s t t' : σ}
    {i : ι}
    {trace : List ι}
    (h : M.Takes s trace t i t') :
    M.step t i = some t' := by
  induction trace generalizing s with
  | nil => exact absurd h not_takes_nil
  | cons j rest ih =>
      rcases h with ⟨s', hStep, hHere | hLater⟩
      · rcases hHere with ⟨rfl, rfl, rfl⟩
        exact hStep
      · exact ih hLater

theorem takes_head
    {M : Machine σ ι}
    {s s' : σ}
    {i : ι}
    (hStep : M.step s i = some s')
    (rest : List ι) :
    M.Takes s (i :: rest) s i s' :=
  ⟨s', hStep, .inl ⟨rfl, rfl, rfl⟩⟩

theorem takes_tail
    {M : Machine σ ι}
    {s s' t t' : σ}
    {i j : ι}
    {rest : List ι}
    (hStep : M.step s j = some s')
    (hTakes : M.Takes s' rest t i t') :
    M.Takes s (j :: rest) t i t' :=
  ⟨s', hStep, .inr hTakes⟩

/- A run whose steps all meet a test, as a trace. -/
theorem takes_of_run
    {M : Machine σ ι}
    {ok : σ → ι → Prop}
    {test : σ → ι → Bool}
    (hTest : ∀ s i, test s i = true → ok s i)
    {trace : List ι}
    {s s' : σ}
    (h : M.run test s trace = some s') :
    M.exec s trace = some s' ∧
      ∀ t i t', M.Takes s trace t i t' → ok t i := by
  induction trace generalizing s with
  | nil => exact ⟨h, fun _ _ _ hTakes => hTakes.elim⟩
  | cons i rest ih =>
      unfold run at h
      by_cases hOk : test s i = true
      · simp only [hOk, if_true,
          Option.bind_eq_some_iff] at h
        rcases h with ⟨next, hStep, hRest⟩
        rcases ih hRest with ⟨hExec, hSteps⟩
        refine ⟨exec_cons_eq_some.mpr ⟨next, hStep, hExec⟩,
          ?_⟩
        intro t j t' hTakes
        rcases hTakes with ⟨u, hHead, hHere | hLater⟩
        · rcases hHere with ⟨rfl, rfl, -⟩
          exact hTest _ _ hOk
        · have hEq := Option.some.inj
            (hHead.symm.trans hStep)
          exact hSteps t j t' (hEq ▸ hLater)
      · simp [hOk] at h

/- The states of a trace from `s`. -/
def Visits
    (M : Machine σ ι)
    (s : σ)
    (trace : List ι)
    (t : σ) :
    Prop :=
  t = s ∨ ∃ u i, M.Takes s trace u i t

theorem visits_tail
    {M : Machine σ ι}
    {s s' t : σ}
    {i : ι}
    {rest : List ι}
    (hStep : M.step s i = some s')
    (hVisits : M.Visits s' rest t) :
    M.Visits s (i :: rest) t := by
  rcases hVisits with rfl | ⟨u, j, hTakes⟩
  · exact .inr ⟨s, i, takes_head hStep rest⟩
  · exact .inr ⟨u, j, takes_tail hStep hTakes⟩

theorem Takes.visits
    {M : Machine σ ι}
    {s t t' : σ}
    {i : ι}
    {trace : List ι}
    (h : M.Takes s trace t i t') :
    M.Visits s trace t ∧ M.Visits s trace t' := by
  refine ⟨?_, .inr ⟨t, i, h⟩⟩
  induction trace generalizing s with
  | nil => exact absurd h not_takes_nil
  | cons j rest ih =>
      rcases h with ⟨s', hStep, hHere | hLater⟩
      · exact .inl hHere.1
      · exact visits_tail hStep (ih hLater)

/- Every state of a trace reaches the state at its end. -/
theorem Visits.rest
    {M : Machine σ ι}
    {s t sEnd : σ}
    {trace : List ι}
    (h : M.Visits s trace t)
    (hEnd : M.exec s trace = some sEnd) :
    ∃ rest, M.exec t rest = some sEnd := by
  rcases h with rfl | ⟨u, i, hTakes⟩
  · exact ⟨trace, hEnd⟩
  · induction trace generalizing s with
    | nil => exact absurd hTakes not_takes_nil
    | cons j rest ih =>
        rcases exec_cons_eq_some.mp hEnd with
          ⟨s1, hStep1, hRest⟩
        rcases hTakes with ⟨s', hStep, hHere | hLater⟩
        · have hEq := Option.some.inj
            (hStep1.symm.trans hStep)
          rcases hHere with ⟨_, _, rfl⟩
          exact ⟨rest, hEq ▸ hRest⟩
        · have hEq := Option.some.inj
            (hStep1.symm.trans hStep)
          exact ih (hEq ▸ hRest) hLater

/-
  An invariant kept by the steps that meet `ok` holds in
  every state of a trace of such steps, and at its end.
-/
theorem exec_invariant
    {M : Machine σ ι}
    {ok : σ → ι → Prop}
    (inv : σ → Prop)
    (hStep : ∀ s i s', inv s → ok s i →
      M.step s i = some s' → inv s')
    {trace : List ι}
    {s : σ}
    (hStart : inv s)
    (hOk : ∀ t i t', M.Takes s trace t i t' → ok t i) :
    (∀ t, M.Visits s trace t → inv t) ∧
      ∀ t, M.exec s trace = some t → inv t := by
  induction trace generalizing s with
  | nil =>
      constructor
      · intro t hVisits
        rcases hVisits with rfl | ⟨u, i, hTakes⟩
        · exact hStart
        · exact absurd hTakes not_takes_nil
      · intro t hEnd
        rw [exec_nil, Option.some.injEq] at hEnd
        exact hEnd ▸ hStart
  | cons j rest ih =>
      have hNext : ∀ s', M.step s j = some s' →
          (∀ t, M.Visits s' rest t → inv t) ∧
            ∀ t, M.exec s' rest = some t → inv t := by
        intro s' hEq
        have hHead := hOk _ _ _ (takes_head hEq rest)
        exact ih (hStep _ _ _ hStart hHead hEq)
          (fun t i t' h => hOk t i t' (takes_tail hEq h))
      constructor
      · intro t hVisits
        rcases hVisits with
          rfl | ⟨u, i, s', hEq, hHere | hLater⟩
        · exact hStart
        · exact hHere.2.2 ▸ (hNext s' hEq).1 s' (.inl rfl)
        · exact (hNext s' hEq).1 t (.inr ⟨u, i, hLater⟩)
      · intro t hEnd
        rcases exec_cons_eq_some.mp hEnd with
          ⟨s', hEq, hRest⟩
        exact (hNext s' hEq).2 t hRest

/-
  A rank that every step with a label in `costs` lowers
  bounds the length of the traces of such steps.
-/
theorem exec_length_le
    {M : Machine σ ι}
    (inv : σ → Prop)
    (costs : ι → Prop)
    (rank : σ → Nat)
    (hInv : ∀ s i s', inv s → M.step s i = some s' → inv s')
    (hRank : ∀ s i s', inv s → costs i →
      M.step s i = some s' → rank s' < rank s)
    {trace : List ι}
    {s s' : σ}
    (hStart : inv s)
    (hCosts : ∀ i ∈ trace, costs i)
    (h : M.exec s trace = some s') :
    trace.length + rank s' ≤ rank s := by
  induction trace generalizing s with
  | nil =>
      rw [exec_nil, Option.some.injEq] at h
      simp [h]
  | cons i rest ih =>
      rcases exec_cons_eq_some.mp h with
        ⟨next, hStep, hRest⟩
      have hLower :=
        hRank s i next hStart (hCosts i (by simp)) hStep
      have hTail := ih (hInv s i next hStart hStep)
        (fun j hj => hCosts j (by simp [hj])) hRest
      rw [List.length_cons]
      omega

------------------------------------------------------------
-- Machines with Data
------------------------------------------------------------

/-
  A machine that carries data along: a step is taken when
  the machine and the data's reaction to it both allow it.
-/
def withData
    (M : Machine σ ι)
    (data : δ)
    (react : σ → ι → δ → Option δ) :
    Machine (σ × δ) ι where
  start := (M.start, data)
  step s i := do
    let control ← M.step s.1 i
    let data ← react s.1 i s.2
    pure (control, data)

theorem withData_step_iff
    {M : Machine σ ι}
    {data : δ}
    {react : σ → ι → δ → Option δ}
    {s s' : σ × δ}
    {i : ι} :
    (M.withData data react).step s i = some s' ↔
      M.step s.1 i = some s'.1 ∧
        react s.1 i s.2 = some s'.2 := by
  simp only [withData, Option.bind_eq_bind,
    Option.bind_eq_some_iff, Option.pure_def,
    Option.some.injEq]
  constructor
  · intro h
    rcases h with ⟨control, hControl, data', hData, rfl⟩
    exact ⟨hControl, hData⟩
  · intro h
    rcases h with ⟨hControl, hData⟩
    exact ⟨_, hControl, _, hData, rfl⟩

/- Forgetting the data leaves a run of the machine. -/
theorem Reachable.control
    {M : Machine σ ι}
    {data : δ}
    {react : σ → ι → δ → Option δ}
    {ok : σ → ι → Prop}
    {s : σ × δ}
    (h : Reachable (M.withData data react)
      (fun s i => ok s.1 i) s) :
    Reachable M ok s.1 := by
  induction h with
  | start => exact .start
  | step _ hOk hStep ih =>
      exact .step ih hOk (withData_step_iff.mp hStep).1

/- As `Reachable.control`, whatever the condition is about. -/
theorem Reachable.control_any
    {M : Machine σ ι}
    {data : δ}
    {react : σ → ι → δ → Option δ}
    {ok : σ × δ → ι → Prop}
    {s : σ × δ}
    (h : Reachable (M.withData data react) ok s) :
    Reachable M anyStep s.1 := by
  induction h with
  | start => exact .start
  | step _ _ hStep ih =>
      exact .step ih trivial (withData_step_iff.mp hStep).1

------------------------------------------------------------
-- Refinement
------------------------------------------------------------

/-
  Where each step of `M` that meets `ok` is the step of `A`
  with the label `f` gives it, seen through `abs`, a trace
  of `M` is one of `A`.
-/
theorem exec_map
    {M : Machine σ ι}
    {A : Machine τ κ}
    {ok : σ → ι → Prop}
    (inv : σ → Prop)
    (abs : σ → τ)
    (f : ι → κ)
    (hInv : ∀ s i s', inv s → ok s i →
      M.step s i = some s' → inv s')
    (hStep : ∀ s i s', inv s → ok s i →
      M.step s i = some s' →
        A.step (abs s) (f i) = some (abs s'))
    {trace : List ι}
    {s s' : σ}
    (hStart : inv s)
    (hOk : ∀ t i t', M.Takes s trace t i t' → ok t i)
    (h : M.exec s trace = some s') :
    A.exec (abs s) (trace.map f) = some (abs s') := by
  induction trace generalizing s with
  | nil =>
      rw [exec_nil, Option.some.injEq] at h
      rw [List.map_nil, exec_nil, h]
  | cons i rest ih =>
      rcases exec_cons_eq_some.mp h with
        ⟨next, hHead, hRest⟩
      have hMeets := hOk _ _ _ (takes_head hHead rest)
      rw [List.map_cons, exec_cons_eq_some]
      refine ⟨abs next, hStep s i next hStart hMeets hHead,
        ih (hInv s i next hStart hMeets hHead) ?_ hRest⟩
      intro t j t' hTakes
      exact hOk t j t' (takes_tail hHead hTakes)

end Machine
