/-
What can go wrong with a file or a stream.

Faults are causes, and the words for them stand in one place. The causes that a
path brings with it are those of opening and creating files; a file that has been
created may have no room for what is written to it; malformed text is found by
whoever reads the bytes; everything else that a device may report keeps the words
of the device.
-/
import SymbolLog.Text.Utf8

set_option autoImplicit false

namespace SymbolLog

/-- Why an operation on a file or a stream failed. -/
inductive Fault where
  | notFound
  /-- The path names a directory where a file is needed. -/
  | isDirectory
  /-- The path leads through a file as if it were a directory. -/
  | notDirectory
  | nameTooLong
  /-- The path holds the character U+0000. -/
  | nulInPath
  /-- What is written finds no room on its device. -/
  | noSpace
  | malformedText (cause : Utf8.Malformed)
  /-- Any other failure, in the words of the device. -/
  | device (message : String)
  deriving DecidableEq

def Fault.message : Fault → String
  | .notFound => "No such file or directory (os error 2)"
  | .isDirectory => "Is a directory (os error 21)"
  | .notDirectory => "Not a directory (os error 20)"
  | .nameTooLong => "File name too long (os error 36)"
  | .nulInPath => "file name contained an unexpected NUL byte"
  | .noSpace => "No space left on device (os error 28)"
  | .malformedText cause => cause.message
  | .device message => message

end SymbolLog
