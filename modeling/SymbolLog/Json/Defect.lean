/-
What can be wrong with a JSON text.

A reader stops at the first thing that is wrong, and a caller asks of it one of
three questions only: is this JSON at all, is it JSON of another shape, or does
it merely stop too early. The three are kept apart from the start, since a text
that is cut short never turns into one that is wrong by being continued.
-/

set_option autoImplicit false

namespace SymbolLog.Json

/-- Why a text is not the JSON that was asked for. -/
inductive Defect where
  /-- A character stands where the grammar has no place for it. -/
  | malformed
  /-- A value is well formed, and another kind of value is needed. -/
  | mismatched
  /-- The text ends before the value does. -/
  | truncated
  deriving DecidableEq

end SymbolLog.Json
