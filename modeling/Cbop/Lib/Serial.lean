import Mathlib.Data.Set.Lattice
import Mathlib.Order.CompletePartialOrder
import Mathlib.Data.Set.Piecewise
import Mathlib.Data.List.Induction

/-
  Transactions on a memory and their serial execution.

  A transaction has a footprint: what it reads, what it
  writes, both depending on the memory it starts from. When
  transactions run on copies of one memory and none reads
  what an earlier one writes, laying their writes over that
  memory in order gives the serial execution.

  Main declarations:
    * `Transaction`
    * `serial`, `replay`
    * `serial_eq_replay`
    * `replay_onto_last_iff`
-/

/-
  A deterministic change of a memory that is determined by
  what it reads and confined to what it writes.
-/
structure Transaction (α β : Type) where
  run : (α → β) → α → β
  reads : (α → β) → Set α
  writes : (α → β) → Set α
  frame : ∀ m a, a ∉ writes m → run m a = m a
  determined : ∀ m m', Set.EqOn m m' (reads m) →
    writes m' = writes m ∧
      Set.EqOn (run m') (run m) (writes m)

namespace Transaction

variable {α β : Type}

/- One transaction after the other. -/
def serial
    (ts : List (Transaction α β))
    (m : α → β) :
    α → β :=
  ts.foldl (fun m t => t.run m) m

open scoped Classical in
/- The writes of a transaction run on `m₀`, laid over `m`. -/
noncomputable def layer
    (m₀ m : α → β)
    (t : Transaction α β) :
    α → β :=
  (t.writes m₀).piecewise (t.run m₀) m

open scoped Classical in
theorem layer_of_mem
    {m₀ : α → β}
    (m : α → β)
    {t : Transaction α β}
    {a : α}
    (h : a ∈ t.writes m₀) :
    layer m₀ m t a = t.run m₀ a :=
  Set.piecewise_eq_of_mem _ _ _ h

open scoped Classical in
theorem layer_of_notMem
    {m₀ : α → β}
    (m : α → β)
    {t : Transaction α β}
    {a : α}
    (h : a ∉ t.writes m₀) :
    layer m₀ m t a = m a :=
  Set.piecewise_eq_of_notMem _ _ _ h

/-
  The writes of transactions that all ran on `m₀`, laid over
  `m` in order.
-/
noncomputable def replay
    (m₀ : α → β)
    (ts : List (Transaction α β))
    (m : α → β) :
    α → β :=
  ts.foldl (layer m₀) m

/- No transaction reads what an earlier one writes. -/
def Independent
    (m₀ : α → β)
    (ts : List (Transaction α β)) : Prop :=
  ts.Pairwise
    (fun t u => Disjoint (u.reads m₀) (t.writes m₀))

/- The last of the transactions that writes `a`. -/
def LastWriter
    (m₀ : α → β)
    (ts : List (Transaction α β))
    (a : α)
    (t : Transaction α β) : Prop :=
  ∃ before after, ts = before ++ t :: after ∧
    a ∈ t.writes m₀ ∧ ∀ u ∈ after, a ∉ u.writes m₀

theorem replay_of_unwritten
    (m₀ : α → β)
    (ts : List (Transaction α β))
    (m : α → β)
    {a : α}
    (h : ∀ t ∈ ts, a ∉ t.writes m₀) :
    replay m₀ ts m a = m a := by
  induction ts generalizing m with
  | nil => rfl
  | cons t rest ih =>
      have hRest := ih (layer m₀ m t)
        (fun u hu => h u (List.mem_cons_of_mem _ hu))
      rw [layer_of_notMem _ (h t List.mem_cons_self)] at hRest
      exact hRest

theorem replay_append
    (m₀ : α → β)
    (ts us : List (Transaction α β))
    (m : α → β) :
    replay m₀ (ts ++ us) m = replay m₀ us (replay m₀ ts m) :=
  List.foldl_append

/- A written address has the value of its last writer. -/
theorem replay_of_lastWriter
    {m₀ : α → β}
    {ts : List (Transaction α β)}
    (m : α → β)
    {a : α}
    {t : Transaction α β}
    (h : LastWriter m₀ ts a t) :
    replay m₀ ts m a = t.run m₀ a := by
  rcases h with ⟨before, after, rfl, hWrites, hAfter⟩
  rw [replay_append]
  change replay m₀ after (layer m₀ _ t) a = _
  rw [replay_of_unwritten m₀ after _ hAfter]
  exact layer_of_mem _ hWrites

/- A written address has a last writer. -/
theorem exists_lastWriter
    (m₀ : α → β)
    (ts : List (Transaction α β))
    {a : α}
    (h : ∃ t ∈ ts, a ∈ t.writes m₀) :
    ∃ t, LastWriter m₀ ts a t := by
  induction ts with
  | nil =>
      rcases h with ⟨t, ht, _⟩
      cases ht
  | cons t rest ih =>
      by_cases hRest : ∃ u ∈ rest, a ∈ u.writes m₀
      · rcases ih hRest with
          ⟨u, before, after, rfl, hWrites, hAfter⟩
        exact ⟨u, t :: before, after, rfl, hWrites, hAfter⟩
      · rcases h with ⟨u, hu, hWrites⟩
        rcases List.mem_cons.mp hu with rfl | hu
        · refine ⟨u, [], rest, rfl, hWrites, ?_⟩
          intro v hv hV
          exact hRest ⟨v, hv, hV⟩
        · exact absurd ⟨u, hu, hWrites⟩ hRest

/-
  A transaction that reads nothing of what was laid over its
  start memory does there what it did on the start memory.
-/
theorem run_replay
    (m₀ : α → β)
    (ts : List (Transaction α β))
    (u : Transaction α β)
    (h : ∀ t ∈ ts, Disjoint (u.reads m₀) (t.writes m₀)) :
    u.run (replay m₀ ts m₀) =
      replay m₀ [u] (replay m₀ ts m₀) := by
  have hReads :
      Set.EqOn m₀ (replay m₀ ts m₀) (u.reads m₀) := by
    intro a ha
    rw [replay_of_unwritten]
    intro t ht hWrites
    exact Set.disjoint_left.mp (h t ht) ha hWrites
  rcases u.determined m₀ _ hReads with ⟨hWrites, hValues⟩
  funext a
  by_cases ha : a ∈ u.writes m₀
  · rw [hValues ha]
    exact (layer_of_mem _ ha).symm
  · rw [u.frame _ a (by rwa [hWrites])]
    exact (layer_of_notMem _ ha).symm

/- Independent transactions have run serially. -/
theorem serial_eq_replay
    (m₀ : α → β)
    (ts : List (Transaction α β))
    (h : Independent m₀ ts) :
    serial ts m₀ = replay m₀ ts m₀ := by
  induction ts using List.reverseRecOn with
  | nil => rfl
  | append_singleton ts u ih =>
      rw [Independent, List.pairwise_append] at h
      rcases h with ⟨hTs, -, hCross⟩
      have hSerial :
          serial (ts ++ [u]) m₀ = u.run (serial ts m₀) :=
        List.foldl_append
      rw [hSerial, ih hTs, replay_append]
      exact run_replay m₀ ts u
        (fun t ht => hCross t ht u List.mem_cons_self)

/-
  Laid over the memory one of the transactions left, all
  their writes give what they give over the start memory.
-/
theorem replay_onto_own
    (m₀ : α → β)
    (ts : List (Transaction α β))
    {u : Transaction α β}
    (hu : u ∈ ts) :
    replay m₀ ts (u.run m₀) = replay m₀ ts m₀ := by
  funext a
  by_cases hWritten : ∃ t ∈ ts, a ∈ t.writes m₀
  · rcases exists_lastWriter m₀ ts hWritten with ⟨t, ht⟩
    rw [replay_of_lastWriter _ ht, replay_of_lastWriter _ ht]
  · have hNone : ∀ t ∈ ts, a ∉ t.writes m₀ := by
      intro t ht ha
      exact hWritten ⟨t, ht, ha⟩
    rw [replay_of_unwritten m₀ ts _ hNone,
      replay_of_unwritten m₀ ts _ hNone]
    exact u.frame m₀ a (hNone u hu)

/-
  The earlier transactions' writes laid over the memory of
  the last one: this is the serial execution exactly if the
  last one agrees with the last writer before it wherever
  both write.
-/
theorem replay_onto_last_iff
    (m₀ : α → β)
    (ts : List (Transaction α β))
    (u : Transaction α β)
    (h : Independent m₀ (ts ++ [u])) :
    replay m₀ ts (u.run m₀) = serial (ts ++ [u]) m₀ ↔
      ∀ a ∈ u.writes m₀, ∀ t, LastWriter m₀ ts a t →
        t.run m₀ a = u.run m₀ a := by
  rw [serial_eq_replay m₀ _ h, replay_append]
  constructor
  · intro hEq a ha t ht
    have hAt := congrFun hEq a
    rw [replay_of_lastWriter _ ht] at hAt
    rw [hAt]
    exact layer_of_mem _ ha
  · intro hAgree
    funext a
    by_cases hWritten : ∃ t ∈ ts, a ∈ t.writes m₀
    · rcases exists_lastWriter m₀ ts hWritten with ⟨t, ht⟩
      rw [replay_of_lastWriter _ ht]
      by_cases ha : a ∈ u.writes m₀
      · rw [hAgree a ha t ht]
        exact (layer_of_mem _ ha).symm
      · rw [← replay_of_lastWriter m₀ ht]
        exact (layer_of_notMem _ ha).symm
    · have hNone : ∀ t ∈ ts, a ∉ t.writes m₀ := by
        intro t ht ha
        exact hWritten ⟨t, ht, ha⟩
      rw [replay_of_unwritten m₀ ts _ hNone]
      by_cases ha : a ∈ u.writes m₀
      · exact (layer_of_mem _ ha).symm
      · rw [u.frame m₀ a ha]
        have hKeep := replay_of_unwritten m₀ ts m₀ hNone
        rw [← hKeep]
        exact (layer_of_notMem _ ha).symm

end Transaction
