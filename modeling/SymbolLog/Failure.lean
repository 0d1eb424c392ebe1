/-
Why an extraction fails.

The one failure that a caller may want to treat apart is a missing input, so it
has a cause of its own; an input that exists and cannot be read has another. A
failure to write names the format and the path and keeps its own cause.
-/
import SymbolLog.Fault
import SymbolLog.Format

set_option autoImplicit false

namespace SymbolLog

/-- Why an extraction, or a part of it, fails. -/
inductive Failure where
  | missingInput (path : String)
  | io (fault : Fault)
  /-- A listing was refused while it was written. -/
  | listing (fault : Fault)
  /-- A table was refused while its records were written. -/
  | record (fault : Fault)
  | unwritable (format : Format) (path : String) (cause : Failure)

namespace Failure

/-- Why an input could not be opened. -/
def ofOpening (path : String) (fault : Fault) : Failure :=
  if fault = .notFound then .missingInput path else .io fault

def isMissingInput : Failure → Bool
  | .missingInput _ => true
  | _ => false

def message : Failure → String
  | .missingInput path => "Log file not found at " ++ path
  | .io fault => "IO error: " ++ fault.message
  | .listing fault => "JSON output error: " ++ fault.message
  | .record fault => "CSV output error: " ++ fault.message
  | .unwritable format path cause =>
    "Failed to write " ++ format.label ++ " output '" ++ path ++ "': " ++ cause.message

end Failure

end SymbolLog
