/-
The order of ids.

Ids are compared as numbers without ever becoming numbers: of two runs of digits
without leading zeros the longer one is the greater, and of two equally long ones
the one with the greater digit at the first difference. This works at any length,
and it extends to ids that are no digits at all, where length is counted in bytes
of UTF-8 and characters are compared by code point, which is the order of their
bytes.
-/
import SymbolLog.Symbol.Basic
import SymbolLog.Text.Utf8

set_option autoImplicit false

namespace SymbolLog

/-- An id without its leading zeros. Of zeros alone one is kept, so that every
spelling of zero is the same. -/
def significantDigits (id : Text) : Text :=
  match id.dropWhile (· = '0') with
  | [] => id.take 1
  | digits => digits

/-- Compares two ids by size and then from their first character on. -/
def compareIds (a b : Text) : Ordering :=
  let a := significantDigits a
  let b := significantDigits b
  (compare (Utf8.size a) (Utf8.size b)).then (compare a b)

/-- A symbol may stand before another if its id is not the greater one. -/
def Symbol.notAfter (a b : Symbol) : Bool := compareIds a.id b.id != .gt

end SymbolLog
