/-
One extraction from start to end.

The input is opened and read to its end before anything is written, so an input
that is missing or breaks off leaves every file as it was. Then the outputs are
written one after the other, and the first that cannot be written ends the
extraction; an output written before it stays. So does a part of an output that
is refused while it is being written: nothing is written elsewhere first and moved
into place, and nothing is taken back.

Whatever happens, the report says how far the extraction came.
-/
import SymbolLog.Blocks
import SymbolLog.Collection

set_option autoImplicit false

namespace SymbolLog

/-- Where an extraction reads and writes. -/
structure Job where
  input : String
  jsonOutput : String
  csvOutput : String
  deriving DecidableEq

structure Report where
  result : Except Failure Tally
  progress : List Progress
  events : List Event

/-- Why an extraction stopped writing, if it did, and what it had written by then. -/
structure Delivery where
  failure : Option Failure
  progress : List Progress
  events : List Event

namespace Job

/-- The paths of an extraction where none are given. -/
def standard : Job := ⟨"orderbook.log", "symbols.json", "symbols.csv"⟩

/-- The outputs, in the order in which they are written. -/
def outputs (job : Job) : List (Format × String) :=
  [(.json, job.jsonOutput), (.csv, job.csvOutput)]

end Job

section
variable {m : Type → Type} [Monad m]

/-- Writes symbols to a file that has been created, through the buffer in front of it. -/
def Format.writeTo (format : Format) (store : Store m) (file : store.File)
    (symbols : List Symbol) : m (Except Failure Unit) := do
  let blocks := (format.blocks symbols).buffered
  match ← store.appendAll file blocks.early with
  | .error fault => return .error (format.refusal fault)
  | .ok () =>
    match ← store.appendAll file blocks.late with
    | .error fault => return .error (.io fault)
    | .ok () => return .ok ()

/-- Writes symbols to the file with a path, which is created first. -/
def Format.save (format : Format) (store : Store m) (path : String) (symbols : List Symbol) :
    m (Except Failure Unit) := do
  match ← store.create path with
  | .error fault => return .error (.unwritable format path (.io fault))
  | .ok file =>
    match ← format.writeTo store file symbols with
    | .error cause => return .error (.unwritable format path cause)
    | .ok () => return .ok ()

/-- Writes symbols to each of some outputs, up to the first that fails. -/
def deliver (store : Store m) (symbols : List Symbol) : List (Format × String) → m Delivery
  | [] => return ⟨none, [], []⟩
  | (format, path) :: rest => do
    match ← format.save store path symbols with
    | .error failure => return ⟨some failure, [], []⟩
    | .ok () =>
      let later ← deliver store symbols rest
      return { failure := later.failure
               progress := .wrote format path :: later.progress
               events := .written path format symbols.length :: later.events }

def Job.run (job : Job) (store : Store m) : m Report := do
  match ← store.openRead job.input with
  | .error fault => return ⟨.error (.ofOpening job.input fault), [], []⟩
  | .ok source =>
    let survey := Survey.ofReader (.ofSource source)
    match survey.fault with
    | some fault => return ⟨.error (.io fault), [.reading job.input], survey.events⟩
    | none =>
      let closing := (Collection.empty.add survey).close
      -- The input has been read to its end; nothing has been written before this point.
      let delivery ← deliver store closing.symbols job.outputs
      return { result :=
                 match delivery.failure with
                 | some failure => .error failure
                 | none => .ok closing.tally
               progress := .reading job.input :: .found closing.symbols.length :: delivery.progress
               events := survey.events ++ closing.events ++ delivery.events }

end

end SymbolLog
