/-
Symbols written as comma-separated values.

A table has a header and one record for each symbol, and every record ends with a
carriage return and a line feed. A field is put between quotes only if it holds
something that would otherwise end it or open a quotation: a comma, a quote, a
carriage return or a line feed. Inside quotes everything stands for itself except
that a quote is written twice.
-/
import SymbolLog.Symbol.Basic

set_option autoImplicit false

namespace SymbolLog.Table

/-- The characters that put their field between quotes. -/
def isSpecial (c : Char) : Bool := c = ',' || c = '"' || c = '\r' || c = '\n'

/-- A character inside quotes. The two quotes that stand for one belong together. -/
def quotedChar (c : Char) : Text := if c = '"' then ['"', '"'] else [c]

/-- A field, in pieces that are sent whole. -/
def fieldPieces (t : Text) : List Text :=
  if t.any isSpecial then ['"'] :: (t.map quotedChar ++ [['"']]) else t.map fun c => [c]

/-- A record of three fields and the end of its line. -/
def recordPieces (a b c : Text) : List Text :=
  fieldPieces a ++ [','] :: fieldPieces b ++ [','] :: fieldPieces c ++ [['\r', '\n']]

def symbolPieces (s : Symbol) : List Text := recordPieces s.id s.name s.description

def header : List Text := recordPieces "ID".toList "Name".toList "Description".toList

/-- A table, in the pieces in which it is sent. -/
def pieces (symbols : List Symbol) : List Text := header ++ symbols.flatMap symbolPieces

def print (symbols : List Symbol) : Text := (pieces symbols).flatten

end SymbolLog.Table
