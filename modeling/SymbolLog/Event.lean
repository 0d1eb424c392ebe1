/-
What an extraction reports while it runs.

Events are for whoever looks for a line that did not yield what it should; each
has a level, and only the events from some level upwards are shown. Progress is
for whoever waits. Neither has any influence on what is extracted.
-/
import SymbolLog.Finding
import SymbolLog.Format

set_option autoImplicit false

namespace SymbolLog

/-! ## Levels -/

/-- How much an event matters. -/
inductive Level where
  | trace
  | debug
  | info
  | warn
  | error
  deriving DecidableEq

namespace Level

/-- The place of a level in the order of importance. -/
def rank : Level → Nat
  | .trace => 0
  | .debug => 1
  | .info => 2
  | .warn => 3
  | .error => 4

def label : Level → String
  | .trace => "TRACE"
  | .debug => "DEBUG"
  | .info => "INFO"
  | .warn => "WARN"
  | .error => "ERROR"

end Level

/-- The least level of the events that are shown, or none if nothing is. -/
abbrev Threshold := Option Level

/-- A threshold admits the levels from its own upwards. -/
def admits (threshold : Threshold) (level : Level) : Bool :=
  match threshold with
  | none => false
  | some least => least.rank ≤ level.rank

/-- The threshold with a name, in letters of any case. -/
def threshold? (name : String) : Option Threshold :=
  match name.toLower with
  | "trace" => some (some .trace)
  | "debug" => some (some .debug)
  | "info" => some (some .info)
  | "warn" => some (some .warn)
  | "error" => some (some .error)
  | "off" => some none
  | _ => none

/-! ## Events -/

/-- Something worth reporting. -/
inductive Event where
  /-- A line is blank or has no id mark. -/
  | noSymbol (line : Nat)
  | unmatched (line : Nat) (packing : Packing)
  /-- A symbol is discarded for a later one with its id. -/
  | replaced (id : Text)
  | complete (matched unique : Nat)
  | written (path : String) (format : Format) (count : Nat)

namespace Event

/-- The event of a line, unless it yields a symbol. -/
def ofFinding? (line : Nat) : Finding → Option Event
  | .blank => some (.noSymbol line)
  | .unmarked _ => some (.noSymbol line)
  | .unmatched packing => some (.unmatched line packing)
  | .symbol _ _ => none

/-- How much an event matters. -/
def level : Event → Level
  | .noSymbol _ => .trace
  | .unmatched _ _ => .debug
  | .replaced _ => .debug
  | .complete _ _ => .info
  | .written _ _ _ => .debug

def origin : Event → String
  | .written _ _ _ => "symex::output_format"
  | _ => "symex::pipeline::stream"

def packingName : Packing → String
  | .envelope => "Envelope"
  | .raw => "Raw"

def body : Event → String
  | .noSymbol line => s!"no symbol on line line={line}"
  | .unmatched line packing =>
    s!"marker without full match, skipping line={line} kind=" ++ packingName packing
  | .replaced id => "duplicate symbol id, keeping later entry id=" ++ String.ofList id
  | .complete matched unique =>
    s!"symbol extraction complete matched={matched} unique={unique}"
  | .written path format count =>
    s!"output written path={path} kind=\"" ++ format.label ++ s!"\" count={count}"

/-- The line of an event from its level on. What whoever shows it puts in front, the
time of day and the blanks that align the level, is no part of the event, and neither
are colours. -/
def render (event : Event) : String :=
  event.level.label ++ " " ++ event.origin ++ ": " ++ event.body

end Event

/-! ## Progress -/

/-- A step that an extraction has made. -/
inductive Progress where
  | reading (path : String)
  | found (count : Nat)
  | wrote (format : Format) (path : String)

def Progress.render : Progress → String
  | .reading path => s!"Reading log file: {path}"
  | .found count => s!"Found {count} unique symbols."
  | .wrote format path => "Wrote " ++ format.label ++ " to " ++ path

end SymbolLog
