/-
Symbols read from JSON.

A listing is read as it comes, and the first thing that is wrong decides which
defect is reported. So the reader never looks ahead: a value of the wrong kind is
noticed when it begins, if it is an array or an object, and when it ends, if it
is anything else; a known key that comes twice is noticed right after the second;
a key that is missing is noticed at the closing brace.

A symbol is an object with the three fields, in any order and among any other
members, or an array of the three strings. What other members hold is read as
JSON and forgotten: it may nest to any depth, and its numbers and strings need no
value.
-/
import SymbolLog.Symbol.Basic
import SymbolLog.Json.Reader

set_option autoImplicit false

namespace SymbolLog.Listing

open Json (Defect skipSpace readText)

/-! ## Values of the wrong kind -/

/-- The defect of a value that is of the wrong kind once it has been read. -/
def mismatchAfter {α : Type} : Except Defect α → Defect
  | .ok _ => .mismatched
  | .error defect => defect

def readNumber (t : Text) : Except Defect (Json.Number × Text) := do
  let (n, rest) ← Json.Number.scan .truncated t
  if n.inRange then .ok (n, rest) else .error .malformed

/-- The defect of a text that starts with a value of a kind that is not wanted, or
with no value at all. -/
def refuse : Text → Defect
  | [] => .truncated
  | c :: t =>
    if c = 'n' then mismatchAfter (Json.readName ['u', 'l', 'l'] t)
    else if c = 't' then mismatchAfter (Json.readName ['r', 'u', 'e'] t)
    else if c = 'f' then mismatchAfter (Json.readName ['a', 'l', 's', 'e'] t)
    else if c = '-' ∨ isDigit c then mismatchAfter (readNumber (c :: t))
    else if c = '"' then mismatchAfter (readText t)
    else if c = '[' ∨ c = '\x7b' then .mismatched
    else .malformed

/-- Reads a string that has to spell a text. -/
def readString : Text → Except Defect (Text × Text)
  | [] => .error (refuse [])
  | c :: t => if c = '"' then readText t else .error (refuse (c :: t))

/-! ## A symbol as an array -/

/-- Reads the first string of an array, after the opening bracket. -/
def readFirst (t : Text) : Except Defect (Text × Text) :=
  match skipSpace t with
  | [] => .error .truncated
  | c :: t => if c = ']' then .error .mismatched else readString (c :: t)

def readNext (t : Text) : Except Defect (Text × Text) :=
  match skipSpace t with
  | [] => .error .truncated
  | c :: t =>
    if c = ']' then .error .mismatched
    else if c = ',' then
      match skipSpace t with
      | [] => .error .truncated
      | c :: t => if c = ']' then .error .malformed else readString (c :: t)
    else .error .malformed

/-- Reads the bracket after the last string of an array. -/
def readClose (t : Text) : Except Defect Text :=
  match skipSpace t with
  | [] => .error .truncated
  | c :: t => if c = ']' then .ok t else .error .malformed

/-- Reads a symbol from an array, after the opening bracket. -/
def readTriple (t : Text) : Except Defect (Symbol × Text) := do
  let (id, t) ← readFirst t
  let (name, t) ← readNext t
  let (description, t) ← readNext t
  let t ← readClose t
  .ok ({ id, name, description }, t)

/-! ## A symbol as an object -/

inductive Field where
  | id
  | name
  | description

def Field.ofKey? (key : Text) : Option Field :=
  if key = "id".toList then some .id
  else if key = "name".toList then some .name
  else if key = "description".toList then some .description
  else none

/-- The fields that have been read so far. -/
structure Fields where
  id : Option Text
  name : Option Text
  description : Option Text

namespace Fields

def empty : Fields := ⟨none, none, none⟩

def get? (fields : Fields) : Field → Option Text
  | .id => fields.id
  | .name => fields.name
  | .description => fields.description

def set (fields : Fields) (value : Text) : Field → Fields
  | .id => { fields with id := some value }
  | .name => { fields with name := some value }
  | .description => { fields with description := some value }

/-- The symbol, if all of its fields have been read. -/
def symbol? (fields : Fields) : Option Symbol := do
  some { id := ← fields.id, name := ← fields.name, description := ← fields.description }

end Fields

/-- Reads the colon and the value after a key, and takes the value in if the key is
that of a field. -/
def readMember (fields : Fields) (key t : Text) : Except Defect (Fields × Text) :=
  match Field.ofKey? key with
  | none => do
    let t ← Json.readColon t
    let (_, t) ← Json.readAhead t.length t
    .ok (fields, t)
  | some field =>
    if (fields.get? field).isSome then .error .mismatched
    else do
      let t ← Json.readColon t
      let (value, t) ← readString t
      .ok (fields.set value field, t)

/-- Reads members and the brace that closes them, starting with a key. Each step
takes a member off the text, so its length is enough steps. -/
def readMembers : (steps : Nat) → Fields → Text → Except Defect (Symbol × Text)
  | 0, _, _ => .error .truncated
  | _ + 1, _, [] => .error .truncated
  | steps + 1, fields, c :: t =>
    if c = '"' then do
      let (key, t) ← readText t
      let (fields, t) ← readMember fields key t
      match skipSpace t with
      | [] => .error .truncated
      | c :: t =>
        if c = '\x7d' then
          match fields.symbol? with
          | some s => .ok (s, t)
          | none => .error .mismatched
        else if c = ',' then readMembers steps fields (skipSpace t)
        else .error .malformed
    else .error .malformed

/-- Reads a symbol from an object, after the opening brace. -/
def readObject (t : Text) : Except Defect (Symbol × Text) :=
  match skipSpace t with
  | [] => .error .truncated
  | c :: t =>
    if c = '\x7d' then .error .mismatched else readMembers (t.length + 1) Fields.empty (c :: t)

/-! ## The listing -/

/-- Reads a symbol, as an array or as an object. -/
def readSymbol : Text → Except Defect (Symbol × Text)
  | [] => .error (refuse [])
  | c :: t =>
    if c = '[' then readTriple t
    else if c = '\x7b' then readObject t
    else .error (refuse (c :: t))

/-- Reads one or more symbols and the bracket that closes the listing. Each step takes
a symbol off the text, so its length is enough steps. -/
def readSymbols : (steps : Nat) → Text → Except Defect (List Symbol × Text)
  | 0, _ => .error .truncated
  | steps + 1, t => do
    let (s, t) ← readSymbol t
    match skipSpace t with
    | [] => .error .truncated
    | c :: t =>
      if c = ']' then .ok ([s], t)
      else if c = ',' then do
        let (others, t) ← readSymbols steps (skipSpace t)
        .ok (s :: others, t)
      else .error .malformed

/-- Reads a listing, after the opening bracket. -/
def readBody (t : Text) : Except Defect (List Symbol × Text) :=
  match skipSpace t with
  | [] => .error .truncated
  | c :: t => if c = ']' then .ok ([], t) else readSymbols (t.length + 1) (c :: t)

/-- The symbols that a whole text lists. -/
def load (t : Text) : Except Defect (List Symbol) :=
  match skipSpace t with
  | [] => .error (refuse [])
  | c :: t =>
    if c = '[' then do
      let (symbols, t) ← readBody t
      Json.readEnd t
      .ok symbols
    else .error (refuse (c :: t))

end SymbolLog.Listing
