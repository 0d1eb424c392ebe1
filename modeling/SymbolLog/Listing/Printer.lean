/-
Symbols written as JSON.

A listing is an array with one object for each symbol and one line for each
member, indented by two blanks a level. It is written in printable ASCII and line
feeds alone, and no line feed ever comes from a symbol: inside a string it is
escaped. An empty listing is a pair of brackets on one line.
-/
import SymbolLog.Symbol.Basic
import SymbolLog.Json.Quoted

set_option autoImplicit false

namespace SymbolLog.Listing

/-- A member of a symbol's object on a line of its own; `lead` ends the line before. -/
def memberPieces (lead key : String) (value : Text) : List Text :=
  lead.toList :: "\n    ".toList :: Json.quoted key.toList ++ ": ".toList :: Json.quoted value

def symbolPieces (s : Symbol) : List Text :=
  memberPieces "\x7b" "id" s.id ++ memberPieces "," "name" s.name
    ++ memberPieces "," "description" s.description ++ ["\n  \x7d".toList]

/-- The objects that follow the first, each after a comma. -/
def otherPieces : List Symbol → List Text
  | [] => ["\n]".toList]
  | s :: rest => ",\n  ".toList :: symbolPieces s ++ otherPieces rest

/-- A listing, in the pieces in which it is sent. -/
def pieces : List Symbol → List Text
  | [] => ["[".toList, "]".toList]
  | s :: rest => "[\n  ".toList :: symbolPieces s ++ otherPieces rest

def print (symbols : List Symbol) : Text := (pieces symbols).flatten

end SymbolLog.Listing
