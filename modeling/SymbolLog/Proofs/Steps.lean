/-
Computations that go step by step and end at the first step that fails.

Reading a number, a listing or the arguments, and finding the place of a path are all of this kind,
each with failures of its own. What is said here of two steps is used to take such a computation
apart at its first step, or to put it together again.
-/
import Mathlib.Logic.Basic

set_option autoImplicit false

namespace SymbolLog

variable {ε α β : Type} {x y : Except ε α} {f g : α → Except ε β} {a : α} {b : β}

/-- Two steps come to a result if the first does and hands on to the second. -/
theorem bind_eq_ok_iff : (x >>= f) = .ok b ↔ ∃ a, x = .ok a ∧ f a = .ok b := by
  cases x with
  | error failure => simp [bind, Except.bind]
  | ok a => simp [bind, Except.bind]

/-- A step that goes well hands its result on. -/
theorem bind_of_ok (h : x = .ok a) (f : α → Except ε β) : (x >>= f) = f a := by
  rw [h]
  rfl

/-- Two steps succeed alike if the first ones do and then the second ones do, whatever the failures
are otherwise. -/
theorem bind_eq_ok_congr (hfirst : ∀ a, x = .ok a ↔ y = .ok a)
    (hnext : ∀ a, f a = .ok b ↔ g a = .ok b) : (x >>= f) = .ok b ↔ (y >>= g) = .ok b := by
  rw [bind_eq_ok_iff, bind_eq_ok_iff]
  exact exists_congr fun a => and_congr (hfirst a) (hnext a)

end SymbolLog
