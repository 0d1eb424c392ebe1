/-
The strings of JSON, read and written.

Between its quotes a string is a sequence of pieces: characters, written as they
are or by a short escape, and UTF-16 units, written as `\u` and four hexadecimal
digits. A character above U+FFFF takes two units, so pieces and characters do not
correspond one to one, and there are strings in the grammar that spell no text,
those with half of a pair alone. The two questions are kept apart. `scan` answers
the first, where the string ends and what its pieces are; `join` answers the
second, which text the pieces spell.

Writing uses printable ASCII only. Runs of characters that need no escape are
passed on whole, so a written string comes in pieces of its own; their
concatenation is what counts. A run is either carried along while it grows or cut
out by its offsets when it ends, which comes to the same.
-/
import SymbolLog.Text.Utf8
import SymbolLog.Json.Defect

set_option autoImplicit false

namespace SymbolLog.Json

/-! ## Scanning -/

/-- A piece of a string between its quotes. -/
inductive Piece where
  /-- A character written as it is or by a short escape. -/
  | char (c : Char)
  /-- A UTF-16 unit written in hexadecimal. -/
  | unit (u : Nat)
  deriving DecidableEq

/-- How the scan of a string ends: at the closing quote, with what follows it, or at
a defect. -/
inductive StringEnd where
  | closed (rest : Text)
  | broken (defect : Defect)

/-- The character that a short escape stands for. -/
def unescape? : Char → Option Char
  | '"' => some '"'
  | '\\' => some '\\'
  | '/' => some '/'
  | 'b' => some '\x08'
  | 'f' => some '\x0c'
  | 'n' => some '\n'
  | 'r' => some '\r'
  | 't' => some '\t'
  | _ => none

def hexValue? (c : Char) : Option Nat :=
  if '0' ≤ c ∧ c ≤ '9' then some (c.toNat - '0'.toNat)
  else if 'a' ≤ c ∧ c ≤ 'f' then some (c.toNat - 'a'.toNat + 10)
  else if 'A' ≤ c ∧ c ≤ 'F' then some (c.toNat - 'A'.toNat + 10)
  else none

/-- The unit that four hexadecimal digits spell. -/
def hexUnit? (a b c d : Char) : Option Nat := do
  let a ← hexValue? a
  let b ← hexValue? b
  let c ← hexValue? c
  let d ← hexValue? d
  some (((a * 16 + b) * 16 + c) * 16 + d)

/-- The pieces of a string up to its closing quote, and how it ends; the text begins
after the opening quote. Of a unit, four bytes are asked for before their digits
are looked at, so a short rest is cut off rather than wrong. -/
def scan : Text → List Piece × StringEnd
  | [] => ([], .broken .truncated)
  | c :: t =>
    if c = '"' then ([], .closed t)
    else if c = '\\' then
      match t with
      | [] => ([], .broken .truncated)
      | e :: t =>
        if e = 'u' then
          match t with
          | a :: b :: c :: d :: t =>
            match hexUnit? a b c d with
            | none => ([], .broken .malformed)
            | some u => let (pieces, stop) := scan t; (.unit u :: pieces, stop)
          | short => ([], .broken (if Utf8.size short < 4 then .truncated else .malformed))
        else
          match unescape? e with
          | none => ([], .broken .malformed)
          | some c => let (pieces, stop) := scan t; (.char c :: pieces, stop)
    else if c < ' ' then ([], .broken .malformed)
    else let (pieces, stop) := scan t; (.char c :: pieces, stop)

/-! ## Joining -/

def isHighUnit (u : Nat) : Bool := 0xD800 ≤ u && u ≤ 0xDBFF

def isLowUnit (u : Nat) : Bool := 0xDC00 ≤ u && u ≤ 0xDFFF

def pairChar (high low : Nat) : Char :=
  Char.ofNat (0x10000 + (high - 0xD800) * 0x400 + (low - 0xDC00))

/-- What a sequence of pieces spells. -/
inductive Joined where
  | text (t : Text)
  /-- The last piece is the first unit of a pair, and the second may still come. -/
  | unpaired
  /-- Half of a pair stands alone. -/
  | lone

def Joined.cons (c : Char) : Joined → Joined
  | .text t => .text (c :: t)
  | other => other

/-- Joins the units of pairs and takes every other piece as one character. -/
def join : List Piece → Joined
  | [] => .text []
  | .char c :: rest => (join rest).cons c
  | .unit u :: rest =>
    if isHighUnit u then
      match rest with
      | [] => .unpaired
      | .char _ :: _ => .lone
      | .unit v :: rest => if isLowUnit v then (join rest).cons (pairChar u v) else .lone
    else if isLowUnit u then .lone
    else (join rest).cons (Char.ofNat u)

/-- The text that a string spells, if it spells one. -/
def textOf? (pieces : List Piece) : Option Text :=
  match join pieces with
  | .text t => some t
  | _ => none

/-- Reads a string that has to spell a text, after its opening quote. Half of a pair
that stands alone is a defect where it stands, so it is noticed before anything
that is wrong further on. -/
def readText (t : Text) : Except Defect (Text × Text) :=
  match scan t with
  | (pieces, .closed rest) =>
    match join pieces with
    | .text t => .ok (t, rest)
    | _ => .error .malformed
  | (pieces, .broken defect) =>
    match join pieces with
    | .lone => .error .malformed
    | _ => .error defect

/-! ## Writing -/

/-- The UTF-16 units of a character. -/
def units (c : Char) : List Nat :=
  if c.toNat < 0x10000 then [c.toNat]
  else [0xD800 + (c.toNat - 0x10000) / 0x400, 0xDC00 + (c.toNat - 0x10000) % 0x400]

/-- A unit as `\u` and four lower-case hexadecimal digits. -/
def escapeUnit (u : Nat) : Text :=
  ['\\', 'u', Nat.digitChar (u / 0x1000 % 16), Nat.digitChar (u / 0x100 % 16),
    Nat.digitChar (u / 0x10 % 16), Nat.digitChar (u % 16)]

/-- The printable characters of ASCII. -/
def isPrintable (c : Char) : Bool := ' ' ≤ c && c ≤ '~'

/-- The escape of a character that a JSON string cannot hold as it is. -/
def escape? (c : Char) : Option Text :=
  if c = '"' then some ['\\', '"']
  else if c = '\\' then some ['\\', '\\']
  else if c = '\x08' then some ['\\', 'b']
  else if c = '\x0c' then some ['\\', 'f']
  else if c = '\n' then some ['\\', 'n']
  else if c = '\r' then some ['\\', 'r']
  else if c = '\t' then some ['\\', 't']
  else if c < ' ' then some (escapeUnit c.toNat)
  else none

/-- A fragment free of characters that JSON escapes, in pieces: runs of printable
characters as they are, the units of every other character as escapes. `run` holds
the current run, last character first. -/
def fragmentFrom (run : Text) : Text → List Text
  | [] => [run.reverse]
  | c :: t =>
    if isPrintable c then fragmentFrom (c :: run) t
    else run.reverse :: ((units c).map escapeUnit ++ fragmentFrom [] t)

/-- A fragment in pieces; an empty one has none. -/
def fragment : Text → List Text
  | [] => []
  | t => fragmentFrom [] t

/-- A text between quotes, in pieces. `run` holds the current fragment, last
character first. -/
def contentFrom (run : Text) : Text → List Text
  | [] => fragment run.reverse
  | c :: t =>
    match escape? c with
    | none => contentFrom (c :: run) t
    | some escaped => fragment run.reverse ++ escaped :: contentFrom [] t

/-- A text as a JSON string, in pieces. -/
def quoted (t : Text) : List Text := ['"'] :: (contentFrom [] t ++ [['"']])

/-! ## Copying by offsets

The current run of a fragment stands between the offset up to which everything has
been written and that of the next character to escape.
-/

/-- The characters of a text with the offsets at which they begin. -/
def charOffsets : Nat → Text → List (Nat × Char)
  | _, [] => []
  | offset, c :: t => (offset, c) :: charOffsets (offset + c.utf8Size) t

/-- How far the copying of a fragment has got: what has been written, and from which offset on
the fragment is still to be written. -/
structure Copying where
  written : List Text
  start : Nat

namespace Copying

def begin : Copying := ⟨[], 0⟩

/-- Goes on by a character. One that is printable is left to be written with those around it; any
other is escaped, when all up to it has been written. -/
def next? (t : Text) (copying : Copying) : Nat × Char → Option Copying
  | (offset, c) =>
    if isPrintable c then some copying
    else do
      let run ← t.slice? copying.start offset
      some ⟨copying.written ++ run :: (units c).map escapeUnit, offset + c.utf8Size⟩

/-- Copying from the beginning of a text over some of its characters. -/
def over? (t : Text) (chars : List (Nat × Char)) : Option Copying := chars.foldlM (next? t) begin

end Copying

/-- The pieces of a fragment, copied by offsets. -/
def copied? (t : Text) : Option (List Text) := do
  let copying ← Copying.over? t (charOffsets 0 t)
  let run ← t.slice? copying.start (Utf8.size t)
  some (copying.written ++ [run])

end SymbolLog.Json
