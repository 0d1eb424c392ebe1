/-
JSON values as they are spelled.

A value keeps the spelling of its numbers and strings. That separates the grammar
from the limits which a reader may put on top of it: how deep values may nest,
whether numbers have to be in range, whether strings have to spell texts. The
grammar accepts a text or not; the limits are conditions on the value.
-/
import SymbolLog.Json.Number
import SymbolLog.Json.Quoted

set_option autoImplicit false

namespace SymbolLog.Json

/-- A JSON value. The members of an object are in the order in which they are
written, repeated keys included. -/
inductive Value where
  | null
  | bool (b : Bool)
  | number (n : Number)
  | string (pieces : List Piece)
  | array (elements : List Value)
  | object (members : List (List Piece × Value))

abbrev Member := List Piece × Value

def spellsText (pieces : List Piece) : Bool := (textOf? pieces).isSome

mutual

/-- A value is exact if a reader that decodes strings and converts numbers accepts
all of them. -/
def Value.isExact : Value → Bool
  | .null => true
  | .bool _ => true
  | .number n => n.inRange
  | .string pieces => spellsText pieces
  | .array elements => Value.areExact elements
  | .object members => Value.membersAreExact members

def Value.areExact : List Value → Bool
  | [] => true
  | v :: rest => v.isExact && Value.areExact rest

/-- All members have keys that spell texts and exact values. -/
def Value.membersAreExact : List (List Piece × Value) → Bool
  | [] => true
  | (key, v) :: rest => spellsText key && v.isExact && Value.membersAreExact rest

end

def Value.text? : Value → Option Text
  | .string pieces => textOf? pieces
  | _ => none

/-- The value of the last member with a key. -/
def lastMember? (key : Text) (members : List Member) : Option Value :=
  (members.reverse.find? fun member => textOf? member.1 = some key).map Prod.snd

end SymbolLog.Json
