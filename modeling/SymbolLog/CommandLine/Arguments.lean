/-
What the arguments of the command line mean.

Arguments are read from left to right. An option that takes a value may have it
attached; otherwise it stays open until another option or the end comes, and only
then is it settled whether it got a value and whether it may be given. So a later
argument that is no option at all is refused before an earlier option without a
value is. Help and version are answered as soon as they are reached.

Nothing is accepted but options, and no argument that begins with a dash is a
value, except for a dash alone.
-/
import SymbolLog.Job
import SymbolLog.Text.Plain

set_option autoImplicit false

namespace SymbolLog.CommandLine

/-! ## Options -/

/-- The options that take a value. -/
inductive Setting where
  | input
  | jsonOutput
  | csvOutput
  deriving DecidableEq

inductive Switch where
  | debug
  | quiet
  | help
  | version
  deriving DecidableEq

inductive Name where
  | setting (s : Setting)
  | switch (s : Switch)

/-- An option that takes a value, in messages. -/
def Setting.label : Setting → String
  | .input => "--input <INPUT>"
  | .jsonOutput => "--json-output <JSON_OUTPUT>"
  | .csvOutput => "--csv-output <CSV_OUTPUT>"

def Switch.label : Switch → String
  | .debug => "--debug"
  | .quiet => "--quiet"
  | .help => "--help"
  | .version => "--version"

def Name.label : Name → String
  | .setting s => s.label
  | .switch s => s.label

/-- The option with a long name. -/
def Name.ofLong? : String → Option Name
  | "input" => some (.setting .input)
  | "json-output" => some (.setting .jsonOutput)
  | "csv-output" => some (.setting .csvOutput)
  | "debug" => some (.switch .debug)
  | "quiet" => some (.switch .quiet)
  | "help" => some (.switch .help)
  | "version" => some (.switch .version)
  | _ => none

def Name.ofShort? : Char → Option Name
  | 'i' => some (.setting .input)
  | 'q' => some (.switch .quiet)
  | 'h' => some (.switch .help)
  | 'V' => some (.switch .version)
  | _ => none

/-! ## Refusals -/

/-- Why arguments are refused. -/
inductive UsageError where
  | unexpectedArgument (argument : String)
  | valueRequired (option : Setting)
  | repeatedOption (option : Name)
  | unexpectedValue (value : String) (option : Switch)

/-- What somebody typed, as a message shows it. -/
def shown (typed : String) : String := String.ofList (Text.plain typed.toList)

def UsageError.message : UsageError → String
  | .unexpectedArgument argument => "unexpected argument '" ++ shown argument ++ "' found"
  | .valueRequired option =>
    "a value is required for '" ++ option.label ++ "' but none was supplied"
  | .repeatedOption option =>
    "the argument '" ++ option.label ++ "' cannot be used multiple times"
  | .unexpectedValue value option =>
    "unexpected value '" ++ shown value ++ "' for '" ++ option.label
      ++ "' found; no more were expected"

/-- Why reading arguments stops before their end. -/
inductive Stop where
  | refused (error : UsageError)
  | help
  | version

/-! ## Options given -/

/-- The options that have been settled. -/
structure Given where
  input : Option String
  jsonOutput : Option String
  csvOutput : Option String
  debug : Bool
  quiet : Bool

namespace Given

def nothing : Given := ⟨none, none, none, false, false⟩

def value? (given : Given) : Setting → Option String
  | .input => given.input
  | .jsonOutput => given.jsonOutput
  | .csvOutput => given.csvOutput

def put (given : Given) (value : String) : Setting → Given
  | .input => { given with input := some value }
  | .jsonOutput => { given with jsonOutput := some value }
  | .csvOutput => { given with csvOutput := some value }

/-- Settles an option that takes a value: first whether it has one, then whether it
has been given before, then whether the value is empty. -/
def settle (given : Given) (option : Setting) : Option String → Except Stop Given
  | none => .error (.refused (.valueRequired option))
  | some value =>
    if (given.value? option).isSome then .error (.refused (.repeatedOption (.setting option)))
    else if value = "" then .error (.refused (.valueRequired option))
    else .ok (given.put value option)

def turnOn (given : Given) : Switch → Except Stop Given
  | .help => .error .help
  | .version => .error .version
  | .debug =>
    if given.debug then .error (.refused (.repeatedOption (.switch .debug)))
    else .ok { given with debug := true }
  | .quiet =>
    if given.quiet then .error (.refused (.repeatedOption (.switch .quiet)))
    else .ok { given with quiet := true }

end Given

/-! ## Reading -/

/-- How far the arguments have been read. -/
structure Reached where
  given : Given
  /-- The option that may still get a value, and the value it has. -/
  pending : Option (Setting × Option String)

namespace Reached

def settled (p : Reached) : Except Stop Given :=
  match p.pending with
  | none => .ok p.given
  | some (option, value) => p.given.settle option value

/-- Opens an option that may get its value from the next argument. -/
def opened (p : Reached) (option : Setting) : Except Stop Reached := do
  return ⟨← p.settled, some (option, none)⟩

def attached (p : Reached) (option : Setting) (value : String) : Except Stop Reached := do
  return ⟨← (← p.settled).settle option (some value), none⟩

def turnedOn (p : Reached) (option : Switch) : Except Stop Reached := do
  return ⟨← (← p.settled).turnOn option, none⟩

/-- Reads an argument that is no option: a value, if one is missing. -/
def readValue (p : Reached) (argument : String) : Except Stop Reached :=
  match p.pending with
  | some (option, none) => .ok { p with pending := some (option, some argument) }
  | _ => .error (.refused (.unexpectedArgument argument))

/-- Reads an option with a long name, and the value attached to it. -/
def readLong (p : Reached) (name : String) (value : Option String) : Except Stop Reached :=
  match Name.ofLong? name, value with
  | none, _ => .error (.refused (.unexpectedArgument ("--" ++ name)))
  | some (.switch option), some value => .error (.refused (.unexpectedValue value option))
  | some (.switch option), none => p.turnedOn option
  | some (.setting option), some value => p.attached option value
  | some (.setting option), none => p.opened option

/-- Reads options of one letter each. What follows one that takes a value is its
value, less an equals sign. -/
def readLetters (p : Reached) : Text → Except Stop Reached
  | [] => .ok p
  | c :: rest =>
    match Name.ofShort? c with
    | none => .error (.refused (.unexpectedArgument (String.ofList ['-', c])))
    | some (.switch option) => do (← p.turnedOn option).readLetters rest
    | some (.setting option) =>
      match rest with
      | [] => p.opened option
      | c :: value => p.attached option (String.ofList (if c = '=' then value else c :: value))

def readArgument (p : Reached) (argument : String) : Except Stop Reached :=
  match argument.toList with
  | '-' :: '-' :: t =>
    match Text.breakOn? ['='] t with
    | none => p.readLong (String.ofList t) none
    | some (name, value) => p.readLong (String.ofList name) (some (String.ofList value))
  | '-' :: c :: t => p.readLetters (c :: t)
  | _ => p.readValue argument

/-- Reads arguments. After two dashes alone every argument is refused. -/
def readArguments (p : Reached) : List String → Except Stop Given
  | [] => p.settled
  | argument :: rest =>
    -- Two dashes end the options, and there is nothing else to give.
    if argument = "--" then
      match rest with
      | [] => p.settled
      | next :: _ => .error (.refused (.unexpectedArgument next))
    else do (← p.readArgument argument).readArguments rest

end Reached

/-! ## Requests -/

/-- What the arguments ask for. -/
structure Request where
  job : Job
  /-- Report more, and print the counters at the end. -/
  debug : Bool
  /-- Print no progress. -/
  quiet : Bool
  deriving DecidableEq

def Given.request (given : Given) : Request where
  job :=
    { input := given.input.getD Job.standard.input
      jsonOutput := given.jsonOutput.getD Job.standard.jsonOutput
      csvOutput := given.csvOutput.getD Job.standard.csvOutput }
  debug := given.debug
  quiet := given.quiet

/-- The request that some arguments make. -/
def parse (arguments : List String) : Except Stop Request := do
  return (← Reached.readArguments ⟨.nothing, none⟩ arguments).request

end SymbolLog.CommandLine
