/-
The record this library is about.

An order book log announces a symbol by an id, a name and a description. The
three are kept as they stand in the log: an id is text and not a number, because
`7` and `07` are two ids, and it may be longer than any machine word.
-/
import SymbolLog.Text.Basic

set_option autoImplicit false

namespace SymbolLog

/-- A symbol of the order book. -/
structure Symbol where
  /-- The id, digit by digit as it was written. -/
  id : Text
  /-- The name, without blanks around it. -/
  name : Text
  /-- The description, without blanks around it; it may be empty. -/
  description : Text
  deriving DecidableEq

end SymbolLog
