import Mathlib

/-!
# Outcomes of code that may stop or spin

Code without a natural bound on its loops runs with a step budget. `Outcome`
keeps the three ways such a run can end apart: a value, a deliberate halt with
its message, and an exhausted budget.
-/

namespace Lib

/-- How a run ends. -/
inductive Outcome (α : Type) where
  | done (value : α)
  | halted (why : String)
  | loop
deriving Repr, DecidableEq

namespace Outcome

variable {α β : Type}

/-- Continue with the value of a run that produced one. -/
def bind : Outcome α → (α → Outcome β) → Outcome β
  | .done value, next => next value
  | .halted why, _ => .halted why
  | .loop, _ => .loop

@[simp] theorem bind_done (value : α) (next : α → Outcome β) : (done value).bind next = next value :=
  rfl

@[simp] theorem bind_halted (why : String) (next : α → Outcome β) :
    (halted why : Outcome α).bind next = .halted why :=
  rfl

@[simp] theorem bind_loop (next : α → Outcome β) : (loop : Outcome α).bind next = .loop := rfl

/-- A sequence produces a value exactly when both of its parts do. -/
theorem bind_eq_done {run : Outcome α} {next : α → Outcome β} {result : β} :
    run.bind next = .done result ↔ ∃ value, run = .done value ∧ next value = .done result := by
  cases run <;> simp

end Outcome
end Lib
