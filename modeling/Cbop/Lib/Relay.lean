import Cbop.Lib.Serial

/-
  Transactions in a relay: each one starts from the common
  start memory with the writes of the one before it on top.

  Only the last transaction's writes are handed on, so an
  address is right for the next one if the last transaction
  wrote it or if it still has its first value.

  Main declarations:
    * `relay`, `ReadsHandedOn`
    * `relay_eq`
    * `run_relay_apply_iff`
-/

namespace Transaction

variable {α β : Type}

open scoped Classical in
/- The memory the next transaction starts from. -/
noncomputable def handOn
    (m₀ m : α → β)
    (t : Transaction α β) :
    α → β :=
  (t.writes m).piecewise (t.run m) m₀

/- The start memory after a list of transactions. -/
noncomputable def relay
    (m₀ : α → β)
    (ts : List (Transaction α β)) :
    α → β :=
  ts.foldl (handOn m₀) m₀

/- What the last transaction writes in a serial execution. -/
def lastWrites
    (m₀ : α → β)
    (ts : List (Transaction α β)) : Set α :=
  { a | ∃ before t, ts = before ++ [t] ∧
    a ∈ t.writes (serial before m₀) }

/-
  Whatever a transaction reads was written by the one right
  before it, or still has its first value.
-/
def ReadsHandedOn
    (m₀ : α → β)
    (ts : List (Transaction α β)) : Prop :=
  ∀ before t after, ts = before ++ t :: after →
    ∀ a ∈ t.reads (serial before m₀),
      a ∈ lastWrites m₀ before ∨
        serial before m₀ a = m₀ a

variable {m₀ : α → β}

theorem relay_concat
    (ts : List (Transaction α β))
    (t : Transaction α β) :
    relay m₀ (ts ++ [t]) = handOn m₀ (relay m₀ ts) t :=
  List.foldl_append

theorem serial_concat
    (ts : List (Transaction α β))
    (t : Transaction α β)
    (m : α → β) :
    serial (ts ++ [t]) m = t.run (serial ts m) :=
  List.foldl_append

theorem lastWrites_nil :
    lastWrites m₀ ([] : List (Transaction α β)) = ∅ := by
  ext a
  simp [lastWrites]

theorem lastWrites_concat
    (ts : List (Transaction α β))
    (t : Transaction α β) :
    lastWrites m₀ (ts ++ [t]) = t.writes (serial ts m₀) := by
  ext a
  constructor
  · intro h
    rcases h with ⟨before, u, hSplit, ha⟩
    rcases List.append_inj' hSplit rfl with ⟨rfl, hLast⟩
    rw [List.singleton_inj] at hLast
    rw [hLast]
    exact ha
  · intro ha
    exact ⟨ts, t, rfl, ha⟩

theorem ReadsHandedOn.of_append
    {ts us : List (Transaction α β)}
    (h : ReadsHandedOn m₀ (ts ++ us)) :
    ReadsHandedOn m₀ ts := by
  intro before t after hEq
  subst hEq
  exact h before t (after ++ us) (by simp)

open scoped Classical in
/- Where a relay and the serial execution agree. -/
theorem eqOn_of_relay
    {ts : List (Transaction α β)}
    {reads : Set α}
    (hRelay : relay m₀ ts =
      (lastWrites m₀ ts).piecewise (serial ts m₀) m₀)
    (hReads : ∀ a ∈ reads,
      a ∈ lastWrites m₀ ts ∨ serial ts m₀ a = m₀ a) :
    Set.EqOn (serial ts m₀) (relay m₀ ts) reads := by
  intro a ha
  rw [hRelay]
  by_cases hLast : a ∈ lastWrites m₀ ts
  · rw [Set.piecewise_eq_of_mem _ _ _ hLast]
  · rw [Set.piecewise_eq_of_notMem _ _ _ hLast]
    exact (hReads a ha).resolve_left hLast

open scoped Classical in
/- A relay holds the last writes and the first values. -/
theorem relay_eq
    (ts : List (Transaction α β))
    (h : ReadsHandedOn m₀ ts) :
    relay m₀ ts =
      (lastWrites m₀ ts).piecewise (serial ts m₀) m₀ := by
  induction ts using List.reverseRecOn with
  | nil =>
      rw [lastWrites_nil, Set.piecewise_empty]
      rfl
  | append_singleton ts t ih =>
      have hReads :=
        eqOn_of_relay (ih h.of_append) (h ts t [] rfl)
      rcases t.determined _ _ hReads with
        ⟨hWrites, hValues⟩
      rw [relay_concat, lastWrites_concat, serial_concat,
        handOn, hWrites]
      funext a
      by_cases ha : a ∈ t.writes (serial ts m₀)
      · rw [Set.piecewise_eq_of_mem _ _ _ ha,
          Set.piecewise_eq_of_mem _ _ _ ha]
        exact hValues ha
      · rw [Set.piecewise_eq_of_notMem _ _ _ ha,
          Set.piecewise_eq_of_notMem _ _ _ ha]

/- A transaction of the relay reads what it reads serially. -/
theorem reads_relay
    {ts : List (Transaction α β)}
    {u : Transaction α β}
    (h : ReadsHandedOn m₀ (ts ++ [u])) :
    Set.EqOn (serial ts m₀) (relay m₀ ts)
      (u.reads (serial ts m₀)) :=
  eqOn_of_relay (relay_eq ts h.of_append) (h ts u [] rfl)

/-
  After the last transaction of a relay an address has its
  serial value exactly if one of the last two transactions
  wrote it or if serially it ends with its first value.
-/
theorem run_relay_apply_iff
    {ts : List (Transaction α β)}
    {u : Transaction α β}
    (h : ReadsHandedOn m₀ (ts ++ [u]))
    (a : α) :
    u.run (relay m₀ ts) a = serial (ts ++ [u]) m₀ a ↔
      a ∈ u.writes (serial ts m₀) ∨
        a ∈ lastWrites m₀ ts ∨
        serial (ts ++ [u]) m₀ a = m₀ a := by
  classical
  rcases u.determined _ _ (reads_relay h) with
    ⟨hWrites, hValues⟩
  rw [serial_concat]
  by_cases ha : a ∈ u.writes (serial ts m₀)
  · simp [ha, hValues ha]
  · rw [u.frame _ a (by rwa [hWrites]), u.frame _ a ha,
      relay_eq ts h.of_append]
    by_cases hLast : a ∈ lastWrites m₀ ts
    · rw [Set.piecewise_eq_of_mem _ _ _ hLast]
      simp [hLast]
    · rw [Set.piecewise_eq_of_notMem _ _ _ hLast]
      simp only [ha, hLast, false_or]
      exact eq_comm

end Transaction
