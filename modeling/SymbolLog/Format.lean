/-
The two formats of the output.

A format turns symbols into a text, and the bytes of that text are the contents of
a file.
-/
import SymbolLog.Listing.Printer
import SymbolLog.Table
import SymbolLog.Text.Utf8

set_option autoImplicit false

namespace SymbolLog

/-- The formats in which symbols are written. -/
inductive Format where
  | json
  /-- A table of comma-separated values. -/
  | csv
  deriving DecidableEq

namespace Format

def label : Format → String
  | .json => "JSON"
  | .csv => "CSV"

/-- Symbols in a format, as one text. -/
def print : Format → List Symbol → Text
  | .json => Listing.print
  | .csv => Table.print

/-- Symbols in a format, as the contents of a file. -/
def render (format : Format) (symbols : List Symbol) : Bytes :=
  Utf8.encode (format.print symbols)

end Format

end SymbolLog
