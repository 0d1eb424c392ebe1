/-
Finding a symbol in running text.

A symbol is announced by `Symbol ID:`, digits, `Name:`, the name, `Desc:`, the
description, with blanks allowed on both sides of each. Read as a pattern, this
would call for a search with backtracking; none is needed. The digits have to be
a whole run, since what follows them is a blank or `Name:`. The name is as short
as possible, so it ends at the first `Desc:`. And it lies on one line, so a line
feed left in it after trimming means that no later `Desc:` can do better. Each
place where the id mark stands thus either yields a symbol or never will, and
the first place that yields one decides.

The description is what is left of the line on which it starts. The blanks
before it are skipped first, and line feeds are blanks, so an empty rest of the
line lets it start on a later one.
-/
import SymbolLog.Symbol.Basic

set_option autoImplicit false

namespace SymbolLog

/-- The mark before an id. A text without it announces no symbol. -/
def idMark : Text := "Symbol ID:".toList

def nameMark : Text := "Name:".toList

def descriptionMark : Text := "Desc:".toList

def Text.firstLine (t : Text) : Text := t.takeWhile (· ≠ '\n')

namespace Symbol

/-- Reads the name and the description from the text after a name mark. -/
def ofLabels? (id : Text) (t : Text) : Option Symbol :=
  match Text.breakOn? descriptionMark t with
  | none => none
  | some (before, after) =>
    let name := Text.trim before
    -- A later mark would only lengthen the name, and the line feed would stay in it.
    if '\n' ∈ name then none
    else some { id, name, description := Text.trim (Text.firstLine (Text.trimStart after)) }

/-- Reads a symbol from the text right after an id mark. -/
def ofFields? (t : Text) : Option Symbol :=
  let (id, rest) := (Text.trimStart t).span isDigit
  if id.isEmpty then none
  else
    match nameMark.isPrefixOf? (Text.trimStart rest) with
    | none => none
    | some labels => ofLabels? id labels

/-- The symbol announced at the first id mark that is followed by all its fields. -/
def ofText? : Text → Option Symbol
  | [] => none
  | t@(_ :: rest) =>
    match (idMark.isPrefixOf? t).bind ofFields? with
    | some symbol => some symbol
    | none => ofText? rest

end Symbol

end SymbolLog
