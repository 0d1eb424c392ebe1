/-
What an extraction asks of the machine that it runs on.

An extraction opens one file and writes two, and whoever started it may ask how
long it took. These requests are all that it knows of a machine, so it is written
once for any: for the one that it really runs on, where a request is an action, and
for one that is given as a value, where a request is a function and what an
extraction does can be reasoned about.

A file is written in two kinds of steps. It is created, or emptied if it is there;
then blocks are written at its end, one after the other, and any of them may be
refused. So a file may be there and hold a part of what was to be written.
-/
import SymbolLog.Log.Source

set_option autoImplicit false

namespace SymbolLog

/-- The requests that an extraction makes. -/
structure Store (m : Type → Type) where
  /-- What a file is known by once it has been created. -/
  File : Type
  /-- Opens a file for reading. What goes wrong later, while it is read, is part of
  the source. -/
  openRead : String → m (Except Fault Source)
  /-- Creates a file, or empties the one that is there. -/
  create : String → m (Except Fault File)
  /-- Writes a block at the end of a file and sees to it that nothing of it stays
  behind. Of a block that is refused, a beginning may be in the file. -/
  append : File → Bytes → m (Except Fault Unit)
  /-- How long the input has been worked on, in nanoseconds. -/
  elapsed : m Nat

/-- Writes blocks at the end of a file, up to the first that is refused. -/
def Store.appendAll {m : Type → Type} [Monad m] (store : Store m) (file : store.File) :
    List Bytes → m (Except Fault Unit)
  | [] => return .ok ()
  | block :: rest => do
    match ← store.append file block with
    | .error fault => return .error fault
    | .ok () => store.appendAll file rest

end SymbolLog
