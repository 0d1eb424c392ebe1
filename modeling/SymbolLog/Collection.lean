/-
Symbols collected from one log or from several.

A log is surveyed first: its lines are looked at in order, up to the first fault
of the reader, and what they yield is written down. A collection then takes a
survey in, whether or not it ended in a fault. So a log that breaks off leaves in
the collection exactly what was read of it, and the next log adds to that as if
nothing had happened.
-/
import SymbolLog.Log.Reader
import SymbolLog.Symbol.Catalogue
import SymbolLog.Tally
import SymbolLog.Event
import SymbolLog.Failure
import SymbolLog.Store

set_option autoImplicit false

namespace SymbolLog

/-! ## Surveys -/

/-- What the lines of a log yield, by their numbers, and the fault that ended it. -/
structure Survey where
  findings : List (Nat × Finding)
  fault : Option Fault

namespace Survey

/-- Looks at lines up to the first fault. -/
def ofReadings : List Reading → Survey
  | [] => ⟨[], none⟩
  | .fault f :: _ => ⟨[], some f⟩
  | .line number t :: rest =>
    let later := ofReadings rest
    { later with findings := (number, Finding.ofLine t) :: later.findings }

def ofReader (r : Reader) : Survey := ofReadings r.readings

def symbols (survey : Survey) : List Symbol := survey.findings.filterMap fun f => f.2.symbol?

def events (survey : Survey) : List Event :=
  survey.findings.filterMap fun f => Event.ofFinding? f.1 f.2

end Survey

/-! ## Collections -/

/-- The symbols found so far, repeated ids included, and the counters. -/
structure Collection where
  symbols : List Symbol
  tally : Tally

/-- What comes of a collection in the end. -/
structure Closing where
  /-- One symbol for each id, sorted. -/
  symbols : List Symbol
  tally : Tally
  events : List Event

namespace Collection

def empty : Collection := ⟨[], .zero⟩

def add (c : Collection) (survey : Survey) : Collection where
  symbols := c.symbols ++ survey.symbols
  tally := survey.findings.foldl (fun tally f => tally.record f.2) c.tally

/-- Takes in what a reader has left, and says why it broke off if it did. -/
def absorb (c : Collection) (r : Reader) : Collection × Option Failure :=
  let survey := Survey.ofReader r
  (c.add survey, survey.fault.map .io)

/-- Takes in a file. One that cannot be opened adds nothing. -/
def absorbFile {m : Type → Type} [Monad m] (c : Collection) (store : Store m) (path : String) :
    m (Collection × Option Failure) := do
  match ← store.openRead path with
  | .ok source => return c.absorb (.ofSource source)
  | .error fault => return (c, some (.ofOpening path fault))

/-- Keeps the last symbol of each id, sorts them and completes the counters. -/
def close (c : Collection) : Closing :=
  let symbols := catalogue c.symbols
  { symbols
    tally :=
      { c.tally with
        discarded := c.symbols.length - symbols.length
        unique := symbols.length }
    events :=
      (repeatedIds [] c.symbols).map .replaced ++ [.complete c.symbols.length symbols.length] }

end Collection

end SymbolLog
