import Mathlib.Data.List.Basic

/-
  What holds of a list of events since some moment of it.

  Main declarations:
    * `Since`
    * `since_snoc`
-/

/-
  At some moment `holds` was true of the events so far, and
  every event after it satisfies `keeps`.
-/
def Since
    {ε : Type}
    (keeps : ε → Prop)
    (holds : List ε → Prop)
    (events : List ε) : Prop :=
  ∃ early late, events = early ++ late ∧
    holds early ∧ ∀ e ∈ late, keeps e

section Since

variable {ε : Type}
variable {keeps : ε → Prop}
variable {holds : List ε → Prop}

theorem since_nil :
    Since keeps holds [] ↔ holds [] := by
  constructor
  · intro h
    rcases h with ⟨early, late, hSplit, hHolds, -⟩
    rcases List.append_eq_nil_iff.mp hSplit.symm with
      ⟨rfl, rfl⟩
    exact hHolds
  · intro hHolds
    exact ⟨[], [], rfl, hHolds, by simp⟩

/- One more event: now, or before and kept. -/
theorem since_snoc
    (events : List ε)
    (e : ε) :
    Since keeps holds (events ++ [e]) ↔
      holds (events ++ [e]) ∨
        keeps e ∧ Since keeps holds events := by
  constructor
  · intro h
    rcases h with ⟨early, late, hSplit, hHolds, hKeeps⟩
    rcases List.eq_nil_or_concat late with
      rfl | ⟨init, last, rfl⟩
    · rw [List.append_nil] at hSplit
      rw [hSplit]
      exact .inl hHolds
    · rw [List.concat_eq_append, ← List.append_assoc]
        at hSplit
      rcases List.append_inj' hSplit rfl with
        ⟨hEvents, hLast⟩
      rw [List.singleton_inj] at hLast
      subst hLast
      refine .inr ⟨hKeeps e (by simp), early, init,
        hEvents, hHolds, ?_⟩
      intro e' he'
      exact hKeeps e' (by simp [he'])
  · intro h
    rcases h with hHolds | ⟨hKeeps, early, late, rfl, hHolds, hLate⟩
    · exact ⟨events ++ [e], [], by simp, hHolds, by simp⟩
    · refine ⟨early, late ++ [e], by simp, hHolds, ?_⟩
      intro e' he'
      rcases List.mem_append.mp he' with he' | he'
      · exact hLate e' he'
      · rw [List.mem_singleton] at he'
        rw [he']
        exact hKeeps

end Since
