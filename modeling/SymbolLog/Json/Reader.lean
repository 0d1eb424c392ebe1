/-
Reading JSON.

The reader descends into a value and returns it with the text that follows it. It
takes two numbers along. One is how deep values may still nest, a limit that a
caller sets; the other bounds the number of steps and is no limit at all, as every
second step takes a character off the text, so twice its length is always enough.

Blanks are skipped before a value and never after it; what follows a value is the
business of whoever asked for it.
-/
import SymbolLog.Json.Value

set_option autoImplicit false

namespace SymbolLog.Json

/-- The four blanks that JSON allows between its tokens. -/
def isSpace (c : Char) : Bool := c = ' ' || c = '\n' || c = '\t' || c = '\r'

def skipSpace (t : Text) : Text := t.dropWhile isSpace

def readName (name : Text) (t : Text) : Except Defect Text :=
  match name, t with
  | [], t => .ok t
  | _ :: _, [] => .error .truncated
  | n :: name, c :: t => if c = n then readName name t else .error .malformed

/-- Reads the colon between a key and its value, and the blanks around it. -/
def readColon (t : Text) : Except Defect Text :=
  match skipSpace t with
  | [] => .error .truncated
  | c :: t => if c = ':' then .ok (skipSpace t) else .error .malformed

/-- Reads a string after its opening quote, whether or not it spells a text. -/
def readPieces (t : Text) : Except Defect (List Piece × Text) :=
  match scan t with
  | (pieces, .closed rest) => .ok (pieces, rest)
  | (_, .broken defect) => .error defect

mutual

/-- Reads the value at the start of a text. -/
def readValue : (steps depth : Nat) → Text → Except Defect (Value × Text)
  | 0, _, _ => .error .truncated
  | _ + 1, _, [] => .error .truncated
  | steps + 1, depth, c :: t =>
    if c = 'n' then do
      let rest ← readName ['u', 'l', 'l'] t
      .ok (.null, rest)
    else if c = 't' then do
      let rest ← readName ['r', 'u', 'e'] t
      .ok (.bool true, rest)
    else if c = 'f' then do
      let rest ← readName ['a', 'l', 's', 'e'] t
      .ok (.bool false, rest)
    else if c = '"' then do
      let (pieces, rest) ← readPieces t
      .ok (.string pieces, rest)
    else if c = '-' ∨ isDigit c then do
      let (n, rest) ← Number.scan .malformed (c :: t)
      .ok (.number n, rest)
    else if c = '[' then
      match depth with
      | 0 => .error .malformed
      | depth + 1 =>
        match skipSpace t with
        | ']' :: rest => .ok (.array [], rest)
        | rest => do
          let (elements, rest) ← readElements steps depth rest
          .ok (.array elements, rest)
    else if c = '\x7b' then
      match depth with
      | 0 => .error .malformed
      | depth + 1 =>
        match skipSpace t with
        | '\x7d' :: rest => .ok (.object [], rest)
        | rest => do
          let (members, rest) ← readMembers steps depth rest
          .ok (.object members, rest)
    else .error .malformed

/-- Reads one or more elements and the bracket that closes them. -/
def readElements : (steps depth : Nat) → Text → Except Defect (List Value × Text)
  | 0, _, _ => .error .truncated
  | steps + 1, depth, t => do
    let (v, rest) ← readValue steps depth t
    match skipSpace rest with
    | [] => .error .truncated
    | c :: rest =>
      if c = ']' then .ok ([v], rest)
      else if c = ',' then do
        let (others, rest) ← readElements steps depth (skipSpace rest)
        .ok (v :: others, rest)
      else .error .malformed

/-- Reads one or more members and the brace that closes them. -/
def readMembers : (steps depth : Nat) → Text → Except Defect (List Member × Text)
  | 0, _, _ => .error .truncated
  | _ + 1, _, [] => .error .truncated
  | steps + 1, depth, c :: t =>
    if c = '"' then do
      let (key, rest) ← readPieces t
      let rest ← readColon rest
      let (v, rest) ← readValue steps depth rest
      match skipSpace rest with
      | [] => .error .truncated
      | c :: rest =>
        if c = '\x7d' then .ok ([(key, v)], rest)
        else if c = ',' then do
          let (others, rest) ← readMembers steps depth (skipSpace rest)
          .ok ((key, v) :: others, rest)
        else .error .malformed
    else .error .malformed

end

/-- Reads the value at the start of a text in which values may nest `depth` deep. -/
def readAhead (depth : Nat) (t : Text) : Except Defect (Value × Text) :=
  readValue (2 * t.length + 2) depth t

/-- Nothing but blanks may follow the value that a whole text spells. -/
def readEnd (t : Text) : Except Defect Unit :=
  if (skipSpace t).isEmpty then .ok () else .error .malformed

/-- The value that a whole text spells, with blanks around it. -/
def read (depth : Nat) (t : Text) : Except Defect Value := do
  let (v, rest) ← readAhead depth (skipSpace t)
  readEnd rest
  .ok v

end SymbolLog.Json
