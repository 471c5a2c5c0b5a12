import Mathlib.Order.Interval.Set.OrdConnectedComponent

/-
  Sets of natural numbers and their runs: the intervals of
  consecutive elements that cannot be made longer.

  Main declarations:
    * `IsRun`, `IsRun.component`
    * `runStarts`, `IsRun.eq_start`
-/

namespace Cbop

/- `lo` up to, but not including, `hi` is a run of `S`. -/
structure IsRun
    (S : Set Nat)
    (lo hi : Nat) : Prop where
  lt : lo < hi
  subset : Set.Ico lo hi ⊆ S
  below : ∀ b, b + 1 = lo → b ∉ S
  above : hi ∉ S

/- Where the runs of `S` start. -/
def runStarts (S : Set Nat) : Set Nat :=
  { a | a ∈ S ∧ ∀ b, b + 1 = a → b ∉ S }

namespace IsRun

variable {S : Set Nat}
variable {lo hi : Nat}

theorem start_mem
    (h : IsRun S lo hi) :
    lo ∈ runStarts S :=
  ⟨h.subset ⟨Nat.le_refl lo, h.lt⟩, h.below⟩

/- A run has no other start than its own. -/
theorem eq_start
    {a : Nat}
    (h : IsRun S lo hi)
    (ha : a ∈ Set.Ico lo hi)
    (hStart : a ∈ runStarts S) :
    a = lo := by
  rcases ha with ⟨hLo, hHi⟩
  by_contra hNe
  have hBefore : a - 1 ∈ Set.Ico lo hi := by
    constructor <;> omega
  exact hStart.2 (a - 1) (by omega) (h.subset hBefore)

/- What is connected inside `S` to an element of a run. -/
theorem component
    {a : Nat}
    (h : IsRun S lo hi)
    (ha : a ∈ Set.Ico lo hi) :
    S.ordConnectedComponent a = Set.Ico lo hi := by
  apply Set.Subset.antisymm
  · intro b hb
    rw [Set.mem_ordConnectedComponent] at hb
    by_contra hOutside
    rw [Set.mem_Ico, not_and_or, not_le, not_lt] at hOutside
    rcases hOutside with hLow | hHigh
    · -- the number before the run lies between the two
      have hBetween : lo - 1 ∈ Set.uIcc a b :=
        Set.mem_uIcc.mpr (.inr ⟨by omega, by
          have hLo := ha.1
          omega⟩)
      exact h.below (lo - 1) (by omega) (hb hBetween)
    · have hBetween : hi ∈ Set.uIcc a b :=
        Set.mem_uIcc.mpr (.inl ⟨ha.2.le, hHigh⟩)
      exact h.above (hb hBetween)
  · exact Set.subset_ordConnectedComponent ha h.subset

end IsRun

end Cbop
