import Cbop.Lib.Spin
import Cbop.Ppr.Survivor

/-
  The locks of `atomic.h` under the protocol.

  The protocol takes a lock in one step, and only when it is
  free. A task that runs `bop_lock_acquire` tries with a
  compare-and-swap, and, while that fails, counts a delay
  down and tries again.

  Main declarations:
    * `lockBackoff`, `awaits`, `spinProtocol`
    * `spinProtocol_refines`
-/

namespace Cbop

variable {ρ : Type}

/- The delays of `lock_acquire_slowpath` and `backoff`. -/
def lockBackoff : Backoff where
  first := 64
  longest := 4096

/- The lock that task `k` takes next. -/
def waitsFor (k : Nat) : Pc ρ → Option Lock
| .setAcquire _ _ => some .sync
| .waitPrior => some (.specChecked (k - 1))
| .waitNext => some (.dataCommitted (k + 1))
| .waitGroupAcquire i => some (.dataCommitted i)
| .waitUndyCreated => some .undyCreated
| .waitUndyConceded => some .undyConceded
| _ => none

/-
  The task that takes this step to take a lock, and whether
  the lock is held.
-/
def awaits
    (s : State ρ) :
    Proc × Act → Option (Nat × Bool)
| (.task k, .go) =>
    (waitsFor k (s.pc k)).map (fun lock => (k, s.held lock))
| _ => none

/- The protocol of one group, with tasks that spin. -/
def spinProtocol (cfg : Group ρ) :
    Machine (State ρ × (Nat → Spin)) (Proc × Act) :=
  (protocol cfg).spinning lockBackoff awaits

/- The task stands where it takes a lock, or is gone. -/
def parked (k : Nat) : Pc ρ → Bool
| .exited _ => true
| pc => (waitsFor k pc).isSome

theorem awaits_inv
    {s : State ρ}
    {label : Proc × Act}
    {k : Nat}
    {held : Bool}
    (h : awaits s label = some (k, held)) :
    label = (.task k, .go) ∧ ∃ lock,
      waitsFor k (s.pc k) = some lock ∧
        s.held lock = held := by
  unfold awaits at h
  split at h
  · rw [Option.map_eq_some_iff] at h
    rcases h with ⟨lock, hLock, hEq⟩
    cases hEq
    exact ⟨rfl, lock, hLock, rfl⟩
  · cases h

theorem parked_of_waitsFor
    {k : Nat}
    {pc : Pc ρ}
    {lock : Lock}
    (h : waitsFor k pc = some lock) :
    parked k pc = true := by
  cases pc <;> simp_all [waitsFor, parked]

/- A parked task runs no code that can abort it. -/
theorem not_mayAbort_of_parked
    {k : Nat}
    {pc : Pc ρ}
    (h : parked k pc = true) :
    mayAbort k pc = false := by
  cases pc <;> simp_all [waitsFor, parked, mayAbort, userCode]

theorem userCode_of_not_mayAbort
    {k : Nat}
    {pc : Pc ρ}
    (h : mayAbort k pc = false) :
    userCode k pc = false := by
  cases pc <;> simp_all [mayAbort, userCode]

/- Locks are taken at these points and no others. -/
theorem TaskMove.acquires_iff
    {cfg : Group ρ}
    {k psize : Nat}
    {pc : Pc ρ}
    {move : Move ρ}
    {lock : Lock}
    (h : TaskMove cfg k psize pc .go move) :
    move.2.1 = .acquire lock ↔
      waitsFor k pc = some lock := by
  cases h <;> simp [waitsFor]

/- A parked task takes its lock, or ends. -/
theorem TaskMove.parked
    {cfg : Group ρ}
    {k psize : Nat}
    {pc : Pc ρ}
    {act : Act}
    {move : Move ρ}
    (h : TaskMove cfg k psize pc act move)
    (hParked : Cbop.parked k pc = true) :
    (act = .go ∧ ∃ lock, waitsFor k pc = some lock) ∨
    (act ≠ .go ∧ Cbop.parked k move.1 = true) := by
  have hAbort := not_mayAbort_of_parked hParked
  have hUser := userCode_of_not_mayAbort hAbort
  cases h <;> simp_all [waitsFor, Cbop.parked]

/- A task that waits for a lock that is held has no step. -/
theorem stuck_of_awaits
    {cfg : Group ρ}
    {s : State ρ}
    {label : Proc × Act}
    {k : Nat}
    (h : awaits s label = some (k, true)) :
    step cfg s label = none := by
  rcases awaits_inv h with ⟨rfl, lock, hLock, hHeld⟩
  by_contra hSome
  rcases Option.ne_none_iff_exists'.mp hSome with ⟨s', hStep⟩
  cases coreStep_of_step hStep with
  | moved j act move hLabel hMove hFree =>
      cases hLabel
      rw [hFree lock (hMove.acquires_iff.mpr hLock)] at hHeld
      cases hHeld
  | ended j why hLabel =>
      rcases hLabel k .go rfl with hGo | hGo <;> cases hGo
  | aside hLabel =>
      rcases hLabel k .go rfl with hGo | hGo <;> cases hGo

/- A parked task stays parked until it moves. -/
theorem parked_step
    {cfg : Group ρ}
    {s s' : State ρ}
    {label : Proc × Act}
    {k : Nat}
    (hUnspawned : Unspawned s)
    (hStep : step cfg s label = some s')
    (hParked : parked k (s.pc k) = true)
    (hNot : ∀ held, awaits s label ≠ some (k, held)) :
    parked k (s'.pc k) = true := by
  cases coreStep_of_step hStep with
  | moved j act move hLabel hMove hFree hPc =>
      have hMoved := pcMoved_of_move hUnspawned hMove hPc
      by_cases hj : k = j
      · subst hj
        rw [hMoved.self]
        rcases hMove.parked hParked with
          ⟨rfl, lock, hLock⟩ | ⟨-, hStays⟩
        · subst hLabel
          exact absurd (by simp [awaits, hLock])
            (hNot (s.held lock))
        · exact hStays
      · rw [hMoved.other (parked k) rfl k hj]
        exact hParked
  | ended j why hLabel hAlive hPc =>
      exact view_ended hPc (parked k) rfl k hParked
  | aside hLabel hPc =>
      rw [hPc]
      exact hParked

/-
  The protocol whose tasks spin reaches, by the same kinds
  of steps, the states in which locks are taken at once and
  no others. A task that spins waits for a lock, or is gone.
  A wait has at most 4098 steps left, and a task that takes
  as many steps, and finds the lock free at each of them,
  has it at one of them, whatever the others do in between.
-/
theorem spinProtocol_refines
    (cfg : Group ρ)
    (ok : State ρ → Proc × Act → Prop) :
    (∀ s, (∃ spins, (spinProtocol cfg).Reachable
        (fun x label => ok x.1 label) (s, spins)) ↔
      (protocol cfg).Reachable ok s) ∧
    ∀ x, (spinProtocol cfg).Reachable
        (fun x label => ok x.1 label) x →
      ∀ k, (x.2 k = .idle ∨ parked k (x.1.pc k) = true) ∧
        Backoff.stepsLeft (x.2 k) ≤ 4098 ∧
        ∀ y trace,
          (spinProtocol cfg).exec x trace = some y →
          (∀ t t', (spinProtocol cfg).Takes x trace t
              (.task k, .go) t' →
            awaits t.1 (.task k, .go) =
              some (k, false)) →
          Backoff.stepsLeft (x.2 k) ≤
              trace.count (.task k, .go) →
            ∃ t t', (spinProtocol cfg).Takes x trace t
                (.task k, .go) t' ∧
              step cfg t.1 (.task k, .go) = some t'.1 := by
  refine ⟨fun s => Machine.spinning_reachable_iff
    (fun _ _ _ h => stuck_of_awaits h), ?_⟩
  intro x hReach k
  have hDoubles : lockBackoff.Doubles := ⟨6, rfl⟩
  refine ⟨?_, lockBackoff.stepsLeft_le
    (Machine.within_of_spinning hDoubles hReach k), ?_⟩
  · refine Machine.parked_of_spinning
      (fun s k => parked k (s.pc k) = true)
      ?_ ?_ hReach k
    · intro s label j held hWaits
      rcases awaits_inv hWaits with ⟨-, lock, hLock, -⟩
      exact parked_of_waitsFor hLock
    · intro s label s' j hBase hStep hParked hNot
      exact parked_step (unspawned_of_reachable hBase)
        hStep hParked hNot
  · intro y trace hExec hClear hCount
    have hOwn : ∀ (s : State ρ) label q flag,
        awaits s label = some (q, flag) →
          label ≠ (.task k, .go) → q ≠ k := by
      rintro s label q flag hWaits hOther rfl
      exact hOther (awaits_inv hWaits).1
    rcases Machine.spinning_through hOwn hExec hClear hCount
      with ⟨t, t', hTakes, -, hStep⟩
    exact ⟨t, t', hTakes, hStep⟩

/-
  Task 1 finds the check of MAIN unfinished once, and has
  the lock 66 steps after MAIN has released it.
-/
theorem spinProtocol_refines_pair :
    ∃ x trace t t',
      (spinProtocol pair).Reachable Machine.anyStep x ∧
      x.2 1 = .delay 64 64 ∧
      (spinProtocol pair).Takes x trace t (.task 1, .go)
        t' ∧
      step pair t.1 (.task 1, .go) = some t'.1 := by
  rcases Machine.exists_reachable_of_run (spinProtocol pair)
      Machine.anyStep (fun _ _ => true)
      (fun _ _ _ => trivial)
      (.replicate 6 (.task 0, .go) ++
        .replicate 4 (.task 1, .go) ++ [(.task 0, .go)])
      (fun x => x.2 1 = .delay 64 64 &&
        ((spinProtocol pair).run
          (fun t label => awaits t.1 label =
            some (1, false)) x
          (.replicate 66 (.task 1, .go))).isSome)
      (by decide) with
    ⟨x, hReach, hTest⟩
  rw [Bool.and_eq_true, decide_eq_true_eq,
    Option.isSome_iff_exists] at hTest
  rcases hTest with ⟨hSpin, y, hRun⟩
  have hFree : ∀ (t : State Unit × (Nat → Spin)) label,
      decide (awaits t.1 label = some (1, false)) =
        true → awaits t.1 label = some (1, false) :=
    fun _ _ h => of_decide_eq_true h
  rcases Machine.takes_of_run hFree hRun with
    ⟨hExec, hClear⟩
  rcases ((spinProtocol_refines pair (fun _ _ => True)).2 x
      hReach 1).2.2 y _ hExec
      (fun t t' hTakes => hClear t _ t' hTakes)
      (by rw [hSpin]; decide) with
    ⟨t, t', hTakes, hStep⟩
  exact ⟨x, _, t, t', hReach, hSpin, hTakes, hStep⟩

end Cbop
