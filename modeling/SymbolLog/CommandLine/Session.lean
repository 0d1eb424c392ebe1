/-
The command line: what is printed, and with which code it ends.

Progress goes to the one channel, everything else to the other. A session that is
refused prints the refusal and does nothing. One that fails ends with the failure
in words, after the events that led to it; one that succeeds ends with the
counters and the time that it took, if they were asked for.
-/
import SymbolLog.CommandLine.Arguments
import SymbolLog.Duration

set_option autoImplicit false

namespace SymbolLog.CommandLine

/-- What a session leaves behind besides files. -/
structure Exit where
  code : Nat
  output : String
  /-- Events are among these without the time of day (`Event.render`). -/
  messages : List String

def versionLine : String := "symex 0.1.0"

def helpLines : List String :=
  ["Extract symbol records from an order book log into JSON and CSV",
    "",
    "Usage: symex [OPTIONS]",
    "",
    "Options:",
    "  -i, --input <INPUT>              Input log file [default: orderbook.log]",
    "      --json-output <JSON_OUTPUT>  JSON output file [default: symbols.json]",
    "      --csv-output <CSV_OUTPUT>    CSV output file [default: symbols.csv]",
    "      --debug                      Debug mode - log skipped lines and print final statistics to stderr",
    "  -q, --quiet                      Suppress progress messages",
    "  -h, --help                       Print help",
    "  -V, --version                    Print version"]

/-- Lines as one text; each of them is ended by a line feed. -/
def ofLines (lines : List String) : String := String.join (lines.map fun line => line ++ "\n")

/-- The counters of an extraction, a line each, and how long the input was worked on. -/
def statistics (tally : Tally) (elapsed : Nat) : List String :=
  ["Final statistics:",
    s!"  Lines read: {tally.lines}",
    s!"  Blank lines: {tally.blank}",
    s!"  Envelope lines: {tally.envelopes}",
    s!"  Raw lines: {tally.raw}",
    s!"  Lines without marker: {tally.unmarked}",
    s!"  Unmatched marker lines: {tally.unmatched}",
    s!"  Symbols matched: {tally.matched}",
    s!"  Duplicates discarded: {tally.discarded}",
    s!"  Unique symbols: {tally.unique}",
    "  Processing time: " ++ Duration.render elapsed]

/-- Which events a session shows, once it is known whether it was asked to report more. -/
abbrev Filter := Bool → Event → Bool

/-- The threshold of a session: the one named from outside, or else the one that the
request implies. -/
def thresholdOf (level : Option String) (debug : Bool) : Threshold :=
  (level.bind threshold?).getD (some (if debug then .debug else .warn))

/-- The filter of a session; `level` is the threshold named from outside. -/
def filterOf (level : Option String) : Filter :=
  fun debug event => admits (thresholdOf level debug) event.level

/-- The events that are shown, a line each. -/
def eventLines (shows : Event → Bool) (events : List Event) : List String :=
  (events.filter shows).map Event.render

/-- The steps of an extraction, a line each, unless they are not wanted. -/
def progressText (quiet : Bool) (steps : List Progress) : String :=
  if quiet then "" else ofLines (steps.map Progress.render)

/-- How a session ends after an extraction that took some time. -/
def conclude (request : Request) (filter : Filter) (report : Report) (elapsed : Nat) : Exit :=
  let output := progressText request.quiet report.progress
  let events := eventLines (filter request.debug) report.events
  match report.result with
  | .error failure => ⟨1, output, events ++ ["Error: " ++ failure.message]⟩
  | .ok tally => ⟨0, output, events ++ if request.debug then statistics tally elapsed else []⟩

/-- How a session ends that does not get to an extraction. -/
def Stop.exit : Stop → Exit
  | .refused error => ⟨2, "", ["error: " ++ error.message]⟩
  | .help => ⟨0, ofLines helpLines, []⟩
  | .version => ⟨0, ofLines [versionLine], []⟩

/-- Runs a session with some arguments, under any filter. -/
def executeWith {m : Type → Type} [Monad m] (store : Store m) (arguments : List String)
    (filter : Filter) : m Exit := do
  match parse arguments with
  | .error stop => return stop.exit
  | .ok request =>
    let report ← request.job.run store
    return conclude request filter report (← store.elapsed)

/-- Runs a session with some arguments; `level` is the threshold named from outside. -/
def execute {m : Type → Type} [Monad m] (store : Store m) (arguments : List String)
    (level : Option String) : m Exit :=
  executeWith store arguments (filterOf level)

end SymbolLog.CommandLine
