import Cbop.Lib.Machine
import Mathlib.Algebra.Group.Nat.Defs
import Mathlib.Logic.Function.Basic

/-
  Busy waiting with backoff, over any machine in which some
  steps wait for a flag.

  The spinning machine takes the steps of the other one, and
  steps of its own in which a process that found its flag
  set counts down before it tries again, twice as long after
  every failure up to a bound. It reaches the states of the
  other machine and no others, and a process that always
  finds its flag clear is through within the bound.

  Main declarations:
    * `Backoff`, `Spin`, `Backoff.poll`
    * `Machine.spinning`, `Machine.spun_of_step`
    * `Machine.spinning_reachable_iff`
    * `Machine.parked_of_spinning`
    * `Machine.spinning_through`
-/

/- The first and the longest delay. -/
structure Backoff where
  first : Nat
  longest : Nat

/-
  How far a process is with its wait: it counts `n` of its
  delay down, or tries again after a delay.
-/
inductive Spin where
| idle
| delay (b n : Nat)
| retry (b : Nat)
deriving DecidableEq, Repr

namespace Backoff

variable (c : Backoff)

/- The delay after one of `b`. -/
def grow (b : Nat) : Nat :=
  if b < c.longest then 2 * b else b

/-
  One step of a wait for a flag that is set or not, and
  whether the process is through.
-/
def poll (flag : Bool) : Spin → Spin × Bool
| .idle =>
    if flag then (.delay c.first c.first, false)
    else (.idle, true)
| .delay b (n + 1) => (.delay b n, false)
| .delay b 0 => (.retry (c.grow b), false)
| .retry b =>
    if flag then (.delay b b, false) else (.idle, true)

/- The longest delay is the first, doubled some times. -/
def Doubles : Prop :=
  ∃ m, c.longest = c.first * 2 ^ m

/- A delay that comes up in a wait. -/
def Within : Spin → Prop
| .idle => True
| .delay b n =>
    n ≤ b ∧ ∃ i, b = c.first * 2 ^ i ∧ b ≤ c.longest
| .retry b => ∃ i, b = c.first * 2 ^ i ∧ b ≤ c.longest

/- The steps of a process whose flag stays clear. -/
def stepsLeft : Spin → Nat
| .idle => 1
| .delay _ n => n + 2
| .retry _ => 1

variable {c : Backoff}
variable {spin : Spin}

theorem stepsLeft_le
    (h : c.Within spin) :
    stepsLeft spin ≤ c.longest + 2 := by
  cases spin with
  | idle => simp [stepsLeft]
  | delay b n =>
      rcases h with ⟨hn, i, -, hb⟩
      simp only [stepsLeft]
      omega
  | retry b => simp [stepsLeft]

/- Below the longest delay there is room to double. -/
theorem grow_le
    {b i : Nat}
    (hDoubles : c.Doubles)
    (hb : b = c.first * 2 ^ i)
    (hLe : b ≤ c.longest) :
    ∃ j, c.grow b = c.first * 2 ^ j ∧
      c.grow b ≤ c.longest := by
  rcases hDoubles with ⟨m, hLongest⟩
  unfold grow
  split
  · rename_i hLess
    have hPow : 2 * b = c.first * 2 ^ (i + 1) := by
      rw [hb, Nat.pow_succ, Nat.mul_comm 2, Nat.mul_assoc]
    have hLt : i < m := by
      by_contra hNot
      rw [hb, hLongest] at hLess
      exact absurd (Nat.mul_le_mul_left c.first
        (Nat.pow_le_pow_right (n := 2) (by omega)
          (Nat.le_of_not_lt hNot))) (by omega)
    refine ⟨i + 1, hPow, ?_⟩
    rw [hPow, hLongest]
    exact Nat.mul_le_mul_left c.first
      (Nat.pow_le_pow_right (by omega) hLt)
  · exact ⟨i, hb, hLe⟩

theorem within_poll
    (hDoubles : c.Doubles)
    (flag : Bool)
    (h : c.Within spin) :
    c.Within (c.poll flag spin).1 := by
  cases spin with
  | idle =>
      cases flag with
      | false => trivial
      | true =>
          refine ⟨Nat.le_refl _, 0, by simp, ?_⟩
          rcases hDoubles with ⟨m, hLongest⟩
          rw [hLongest]
          exact Nat.le_mul_of_pos_right _ (Nat.two_pow_pos m)
  | delay b n =>
      cases n with
      | succ n =>
          have hn := h.1
          exact ⟨by omega, h.2⟩
      | zero =>
          rcases h with ⟨-, i, hb, hLe⟩
          exact grow_le hDoubles hb hLe
  | retry b =>
      cases flag with
      | false => trivial
      | true => exact ⟨Nat.le_refl _, h⟩

/- A process whose flag is clear gets closer or is through. -/
theorem stepsLeft_poll
    (c : Backoff)
    (spin : Spin) :
    ((c.poll false spin).2 = true ∧ stepsLeft spin = 1) ∨
      (c.poll false spin).2 = false ∧
        stepsLeft spin =
          stepsLeft (c.poll false spin).1 + 1 := by
  cases spin with
  | idle => exact Or.inl ⟨rfl, rfl⟩
  | delay b n =>
      cases n with
      | zero => exact Or.inr ⟨rfl, rfl⟩
      | succ n => exact Or.inr ⟨rfl, rfl⟩
  | retry b => exact Or.inl ⟨rfl, rfl⟩

/- Whoever is through spins no more. -/
theorem idle_of_poll
    {flag : Bool}
    (h : (c.poll flag spin).2 = true) :
    (c.poll flag spin).1 = .idle := by
  cases spin with
  | idle =>
      cases flag with
      | false => rfl
      | true => cases h
  | delay b n => cases n <;> cases h
  | retry b =>
      cases flag with
      | false => rfl
      | true => cases h

end Backoff

namespace Machine

variable {σ ι π : Type}
variable [DecidableEq π]

/-
  The machine whose steps marked by `waits`, with the process
  that takes them and the flag it waits for, are taken by a
  process that spins.
-/
def spinning
    (M : Machine σ ι)
    (c : Backoff)
    (waits : σ → ι → Option (π × Bool)) :
    Machine (σ × (π → Spin)) ι where
  start := (M.start, fun _ => .idle)
  step x i :=
    match waits x.1 i with
    | none => (M.step x.1 i).map (fun s => (s, x.2))
    | some (p, flag) =>
        let (spin, through) := c.poll flag (x.2 p)
        let spins := Function.update x.2 p spin
        if through then
          (M.step x.1 i).map (fun s => (s, spins))
        else some (x.1, spins)

section Spinning

variable {M : Machine σ ι}
variable {c : Backoff}
variable {waits : σ → ι → Option (π × Bool)}
variable {ok : σ → ι → Prop}

/-
  The steps of the spinning machine: one that waits for no
  flag, one of a process that is through, or one of a wait
  alone.
-/
inductive Spun
    (M : Machine σ ι)
    (c : Backoff)
    (waits : σ → ι → Option (π × Bool))
    (x : σ × (π → Spin))
    (i : ι)
    (x' : σ × (π → Spin)) : Prop where
| free
    (hNone : waits x.1 i = none)
    (hStep : M.step x.1 i = some x'.1)
    (hSame : x'.2 = x.2)
| through
    (p : π)
    (flag : Bool)
    (hWaits : waits x.1 i = some (p, flag))
    (hPoll : (c.poll flag (x.2 p)).2 = true)
    (hStep : M.step x.1 i = some x'.1)
    (hSpins : x'.2 =
      Function.update x.2 p (c.poll flag (x.2 p)).1)
| spins
    (p : π)
    (flag : Bool)
    (hWaits : waits x.1 i = some (p, flag))
    (hPoll : (c.poll flag (x.2 p)).2 = false)
    (hSame : x'.1 = x.1)
    (hSpins : x'.2 =
      Function.update x.2 p (c.poll flag (x.2 p)).1)

theorem spun_of_step
    {x x' : σ × (π → Spin)}
    {i : ι}
    (h : (M.spinning c waits).step x i = some x') :
    Spun M c waits x i x' := by
  simp only [spinning] at h
  split at h
  · rename_i hNone
    rw [Option.map_eq_some_iff] at h
    rcases h with ⟨s, hStep, rfl⟩
    exact .free hNone hStep rfl
  · rename_i p flag hWaits
    split at h
    · rename_i hPoll
      rw [Option.map_eq_some_iff] at h
      rcases h with ⟨s, hStep, rfl⟩
      exact .through p flag hWaits hPoll hStep rfl
    · rename_i hPoll
      cases h
      exact .spins p flag hWaits (by simpa using hPoll) rfl
        rfl

/- A wait alone leaves the machine where it was. -/
theorem Reachable.of_spinning
    {x : σ × (π → Spin)}
    (h : (M.spinning c waits).Reachable
      (fun x i => ok x.1 i) x) :
    M.Reachable ok x.1 := by
  induction h with
  | start => exact .start
  | step _ hOk hStep ih =>
      cases spun_of_step hStep with
      | free _ hMoved => exact .step ih hOk hMoved
      | through p flag _ _ hMoved =>
          exact .step ih hOk hMoved
      | spins p flag _ _ hSame =>
          rw [hSame]
          exact ih

/- A process that never finds its flag set does not spin. -/
theorem Reachable.spinning
    (hFlag : ∀ s i p, waits s i = some (p, true) →
      M.step s i = none)
    {s : σ}
    (h : M.Reachable ok s) :
    (M.spinning c waits).Reachable (fun x i => ok x.1 i)
      (s, fun _ => .idle) := by
  induction h with
  | start => exact .start
  | @step s s' i _ hOk hStep ih =>
      refine .step (i := i) ih hOk ?_
      cases hWaits : waits s i with
      | none =>
          simp only [Machine.spinning, hWaits, hStep,
            Option.map_some]
      | some wait =>
          rcases wait with ⟨p, flag⟩
          cases flag with
          | true =>
              rw [hFlag s i p hWaits] at hStep
              cases hStep
          | false =>
              have hIdle : Function.update
                  (fun _ : π => Spin.idle) p .idle =
                    fun _ => .idle :=
                Function.update_eq_self p _
              simp only [Machine.spinning, hWaits,
                Backoff.poll, Bool.false_eq_true, if_false,
                if_true, hStep, Option.map_some, hIdle]

/- Spinning reaches the same states. -/
theorem spinning_reachable_iff
    (hFlag : ∀ s i p, waits s i = some (p, true) →
      M.step s i = none)
    {s : σ} :
    (∃ spins, (M.spinning c waits).Reachable
      (fun x i => ok x.1 i) (s, spins)) ↔
        M.Reachable ok s := by
  constructor
  · rintro ⟨spins, h⟩
    exact h.of_spinning
  · intro h
    exact ⟨_, h.spinning hFlag⟩

/- The delays of a run are those of the backoff. -/
theorem within_of_spinning
    (hDoubles : c.Doubles)
    {ok : σ × (π → Spin) → ι → Prop}
    {x : σ × (π → Spin)}
    (h : (M.spinning c waits).Reachable ok x)
    (p : π) :
    c.Within (x.2 p) := by
  apply h.invariant (fun x => ∀ p, c.Within (x.2 p))
  · intro p
    trivial
  · intro x i x' _ hInv _ hStep p
    have hUpdate : ∀ q flag, c.Within
        (Function.update x.2 q (c.poll flag (x.2 q)).1 p) := by
      intro q flag
      by_cases hp : p = q
      · subst hp
        rw [Function.update_self]
        exact c.within_poll hDoubles flag (hInv p)
      · rw [Function.update_of_ne hp]
        exact hInv p
    cases spun_of_step hStep with
    | free _ _ hSame =>
        rw [hSame]
        exact hInv p
    | through q flag _ _ _ hSpins =>
        rw [hSpins]
        exact hUpdate q flag
    | spins q flag _ _ _ hSpins =>
        rw [hSpins]
        exact hUpdate q flag

/-
  A process that spins is where it waits, when the steps
  that are not its own leave it there.
-/
theorem parked_of_spinning
    (parked : σ → π → Prop)
    (hWaits : ∀ s i p flag, waits s i = some (p, flag) →
      parked s p)
    (hKeep : ∀ s i s' p, M.Reachable ok s →
      M.step s i = some s' → parked s p →
        (∀ flag, waits s i ≠ some (p, flag)) → parked s' p)
    {x : σ × (π → Spin)}
    (h : (M.spinning c waits).Reachable
      (fun x i => ok x.1 i) x)
    (p : π) :
    x.2 p = .idle ∨ parked x.1 p := by
  induction h with
  | start => exact Or.inl rfl
  | @step x x' i hReach _ hStep ih =>
      have hBase := hReach.of_spinning
      -- another process waits, or none
      have hOther :
          (∀ flag, waits x.1 i ≠ some (p, flag)) →
            M.step x.1 i = some x'.1 → x'.2 p = x.2 p →
              x'.2 p = .idle ∨ parked x'.1 p := by
        intro hNot hMoved hSame
        rw [hSame]
        exact ih.imp_right (fun hParked =>
          hKeep _ _ _ p hBase hMoved hParked hNot)
      cases spun_of_step hStep with
      | free hNone hMoved hSame =>
          exact hOther (by simp [hNone]) hMoved
            (congrFun hSame p)
      | through q flag hQ hPoll hMoved hSpins =>
          by_cases hq : p = q
          · subst hq
            left
            rw [hSpins, Function.update_self]
            exact Backoff.idle_of_poll hPoll
          · refine hOther ?_ hMoved ?_
            · intro flag' hEq
              rw [hQ] at hEq
              cases hEq
              exact hq rfl
            · rw [hSpins, Function.update_of_ne hq]
      | spins q flag hQ hPoll hSame hSpins =>
          rw [hSame, hSpins]
          by_cases hq : p = q
          · subst hq
            exact Or.inr (hWaits _ _ _ _ hQ)
          · rw [Function.update_of_ne hq]
            exact ih

/- A step of another process leaves this one's wait. -/
theorem spinning_other
    {x x' : σ × (π → Spin)}
    {j : ι}
    {p : π}
    (hOther : ∀ q flag, waits x.1 j = some (q, flag) → q ≠ p)
    (h : (M.spinning c waits).step x j = some x') :
    x'.2 p = x.2 p := by
  cases spun_of_step h with
  | free _ _ hSame => rw [hSame]
  | through q flag hWaits _ _ hSpins =>
      rw [hSpins]
      exact Function.update_of_ne
        (hOther q flag hWaits).symm _ _
  | spins q flag hWaits _ _ hSpins =>
      rw [hSpins]
      exact Function.update_of_ne
        (hOther q flag hWaits).symm _ _

/- A step that finds the flag clear. -/
theorem spinning_clear
    {x x' : σ × (π → Spin)}
    {i : ι}
    {p : π}
    (hWaits : waits x.1 i = some (p, false))
    (h : (M.spinning c waits).step x i = some x') :
    ((c.poll false (x.2 p)).2 = true ∧
        M.step x.1 i = some x'.1) ∨
      Backoff.stepsLeft (x.2 p) =
        Backoff.stepsLeft (x'.2 p) + 1 := by
  cases spun_of_step h with
  | free hNone =>
      rw [hWaits] at hNone
      cases hNone
  | through q flag hQ hPoll hStep =>
      rw [hWaits] at hQ
      cases hQ
      exact Or.inl ⟨hPoll, hStep⟩
  | spins q flag hQ hPoll _ hSpins =>
      rw [hWaits] at hQ
      cases hQ
      right
      rw [hSpins, Function.update_self]
      rcases Backoff.stepsLeft_poll c (x.2 p) with
        ⟨hThrough, -⟩ | ⟨-, hMore⟩
      · rw [hPoll] at hThrough
        cases hThrough
      · exact hMore

/-
  A process that takes as many steps as its wait has left,
  and finds its flag clear at each of them, is through at
  one of them, whatever the others do in between.
-/
theorem spinning_through
    [BEq ι] [LawfulBEq ι]
    {x y : σ × (π → Spin)}
    {i : ι}
    {p : π}
    {trace : List ι}
    (hOwn : ∀ s j q flag, waits s j = some (q, flag) →
      j ≠ i → q ≠ p)
    (hExec : (M.spinning c waits).exec x trace = some y)
    (hClear : ∀ t t', (M.spinning c waits).Takes x trace t i
      t' → waits t.1 i = some (p, false))
    (hCount : Backoff.stepsLeft (x.2 p) ≤ trace.count i) :
    ∃ t t', (M.spinning c waits).Takes x trace t i t' ∧
      (c.poll false (t.2 p)).2 = true ∧
      M.step t.1 i = some t'.1 := by
  induction trace generalizing x with
  | nil =>
      rcases Backoff.stepsLeft_poll c (x.2 p) with
        ⟨-, hOne⟩ | ⟨-, hMore⟩
      all_goals
        rw [List.count_nil] at hCount
        omega
  | cons j rest ih =>
      rcases exec_cons_eq_some.mp hExec with
        ⟨x', hStep, hRest⟩
      have hLater : ∀ t t',
          (M.spinning c waits).Takes x' rest t i t' →
            waits t.1 i = some (p, false) :=
        fun t t' h => hClear t t' (takes_tail hStep h)
      by_cases hj : j = i
      · subst hj
        rw [List.count_cons_self] at hCount
        have hHead := takes_head hStep rest
        rcases spinning_clear (hClear _ _ hHead) hStep with
          hThrough | hLeft
        · exact ⟨x, x', hHead, hThrough⟩
        · rcases ih hRest hLater (by omega) with
            ⟨t, t', hTakes, hThrough⟩
          exact ⟨t, t', takes_tail hStep hTakes, hThrough⟩
      · rw [List.count_cons_of_ne hj] at hCount
        have hSame := spinning_other
          (fun q flag h => hOwn x.1 j q flag h hj) hStep
        rw [← hSame] at hCount
        rcases ih hRest hLater hCount with
          ⟨t, t', hTakes, hThrough⟩
        exact ⟨t, t', takes_tail hStep hTakes, hThrough⟩

end Spinning

end Machine
