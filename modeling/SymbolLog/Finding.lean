/-
What a line yields.

The steps are ordered from the cheap to the dear: a blank line is not looked into,
a text without the id mark is not searched. Neither shortcut can hide a symbol,
for a symbol cannot be found in a text without the mark, but each has its own
place in the statistics.
-/
import SymbolLog.Entry
import SymbolLog.Symbol.Pattern

set_option autoImplicit false

namespace SymbolLog

/-- What a line of the log yields. -/
inductive Finding where
  | blank
  /-- A text without the id mark. -/
  | unmarked (packing : Packing)
  /-- A text with the id mark and without a whole symbol. -/
  | unmatched (packing : Packing)
  | symbol (packing : Packing) (s : Symbol)
  deriving DecidableEq

namespace Finding

def ofEntry (entry : Entry) : Finding :=
  if entry.text.contains idMark then
    match Symbol.ofText? entry.text with
    | some s => .symbol entry.packing s
    | none => .unmatched entry.packing
  else .unmarked entry.packing

/-- What a line yields; the blanks around it do not count. -/
def ofLine (line : Text) : Finding :=
  let line := line.trim
  if line.isEmpty then .blank else ofEntry (Entry.ofLine line)

/-- How the line is packed, unless it is blank. -/
def packing? : Finding → Option Packing
  | .blank => none
  | .unmarked p => some p
  | .unmatched p => some p
  | .symbol p _ => some p

def symbol? : Finding → Option Symbol
  | .symbol _ s => some s
  | _ => none

end Finding

end SymbolLog
