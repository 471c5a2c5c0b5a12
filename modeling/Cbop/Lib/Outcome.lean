import Mathlib.Tactic.Common

/-
  Results of code that may end its process: a value, an
  orderly abort, or a fault such as a failed assertion.

  Main declarations:
    * `Outcome`
    * `Outcome.bind_eq_ret_iff`
-/

/- A computation that returns, aborts or faults. -/
inductive Outcome (α : Type) where
| ret : α → Outcome α
| abort : Outcome α
| fault : Outcome α
deriving DecidableEq, Repr

namespace Outcome

variable {α β : Type}

/- Run the continuation on a returned value only. -/
def bind (x : Outcome α) (f : α → Outcome β) : Outcome β :=
  match x with
  | .ret a => f a
  | .abort => .abort
  | .fault => .fault

instance : Monad Outcome where
  pure := .ret
  bind := Outcome.bind

/- A missing value is a fault. -/
def ofOption : Option α → Outcome α
| some a => .ret a
| none => .fault

@[simp] theorem ofOption_eq_ret_iff
    {x : Option α}
    {a : α} :
    ofOption x = .ret a ↔ x = some a := by
  cases x with
  | none => simp [ofOption]
  | some b => simp [ofOption]

@[simp] theorem ret_bind
    (a : α)
    (f : α → Outcome β) :
    (Outcome.ret a >>= f) = f a := rfl

/- A sequence returns when both of its parts do. -/
@[simp] theorem bind_eq_ret_iff
    {x : Outcome α}
    {f : α → Outcome β}
    {b : β} :
    (x >>= f) = .ret b ↔
      ∃ a, x = .ret a ∧ f a = .ret b := by
  cases x with
  | ret a =>
      change f a = .ret b ↔ _
      simp
  | abort =>
      change (Outcome.abort : Outcome β) = .ret b ↔ _
      simp
  | fault =>
      change (Outcome.fault : Outcome β) = .ret b ↔ _
      simp

@[simp] theorem pure_eq_ret_iff
    {a b : α} :
    (pure a : Outcome α) = .ret b ↔ a = b := by
  change Outcome.ret a = .ret b ↔ _
  simp

instance : LawfulMonad Outcome :=
  LawfulMonad.mk' Outcome
    (by intro α x; cases x <;> rfl)
    (by intro α β x f; rfl)
    (by intro α β γ x f g; cases x <;> rfl)

end Outcome
