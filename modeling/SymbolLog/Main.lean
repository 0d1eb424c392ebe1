/-
The program: a session of the command line on the files of the machine.
-/
import SymbolLog.CommandLine.Session

set_option autoImplicit false

namespace SymbolLog

/-- The fault that an error of the machine stands for. -/
def faultOfError : IO.Error → Fault
  | .noFileOrDirectory _ _ _ => .notFound
  | .inappropriateType _ 20 _ => .notDirectory
  | .inappropriateType _ 21 _ => .isDirectory
  | .invalidArgument _ 36 _ => .nameTooLong
  | .resourceExhausted _ 28 _ => .noSpace
  | error => .device (toString error)

/-- How many bytes are asked for at a time. -/
def readSize : USize := 8192

/-- Reads a file up to its end or to the first error. What was read before an error is part
of the source; nobody asks for what might come after it. -/
def readFile (handle : IO.FS.Handle) : IO Source := do
  let mut contents := ByteArray.empty
  repeat
    match ← (handle.read readSize).toBaseIO with
    | .error error => return Source.ofBytes contents.toList ++ [.failure (faultOfError error)]
    | .ok chunk =>
      if chunk.isEmpty then break
      contents := contents ++ chunk
  return .ofBytes contents.toList

/-- Opens a file and reads it. -/
def openFile (path : String) : IO (Except Fault Source) := do
  if path.contains '\x00' then return .error .nulInPath
  match ← (IO.FS.Handle.mk path .read).toBaseIO with
  | .error error => return .error (faultOfError error)
  | .ok handle => return .ok (← readFile handle)

/-- Creates a file or empties it. -/
def createFile (path : String) : IO (Except Fault IO.FS.Handle) := do
  if path.contains '\x00' then return .error .nulInPath
  match ← (IO.FS.Handle.mk path .write).toBaseIO with
  | .error error => return .error (faultOfError error)
  | .ok handle => return .ok handle

/-- Writes a block at the end of a file, past any buffer on the way. -/
def appendToFile (handle : IO.FS.Handle) (block : Bytes) : IO (Except Fault Unit) := do
  match ← (handle.write block.toByteArray *> handle.flush).toBaseIO with
  | .error error => return .error (faultOfError error)
  | .ok () => return .ok ()

/-- The machine that the program runs on, where work began at some time of its clock. -/
def machineStore (start : Nat) : Store IO where
  File := IO.FS.Handle
  openRead := openFile
  create := createFile
  append := appendToFile
  elapsed := return (← IO.monoNanosNow) - start

/-- The environment variable that names the threshold of a session. -/
def thresholdVariable : String := "RUST_LOG"

end SymbolLog

def main (arguments : List String) : IO UInt32 := do
  let level ← IO.getEnv SymbolLog.thresholdVariable
  let start ← IO.monoNanosNow
  let exit ← SymbolLog.CommandLine.execute (SymbolLog.machineStore start) arguments level
  IO.print exit.output
  exit.messages.forM IO.eprintln
  return exit.code.toUInt32
