/-
What a line of the log holds.

Lines come in two packings. A line that is one JSON object is an envelope, and
the text to look at is its `message`; any other line is looked at as it stands.
An envelope whose message is missing or no string still is an envelope: it holds
the empty text, and nothing else in it is ever looked at.
-/
import SymbolLog.Json.Reader

set_option autoImplicit false

namespace SymbolLog

/-- How a line that is not blank is packed. -/
inductive Packing where
  | envelope
  | raw
  deriving DecidableEq

/-- A line that is not blank. -/
inductive Entry where
  /-- A JSON object with this message. -/
  | envelope (message : Text)
  /-- Any other line. -/
  | raw (line : Text)
  deriving DecidableEq

namespace Entry

/-- How deep the values of an envelope may nest, the envelope itself included. -/
def depthLimit : Nat := 127

def messageKey : Text := "message".toList

/-- The message of an object: its last member of that name, if it is a string. -/
def messageOf (members : List Json.Member) : Text :=
  ((Json.lastMember? messageKey members).bind Json.Value.text?).getD []

/-- Reads a line as an envelope if it is one object within the limits, and as itself
otherwise. -/
def ofLine (line : Text) : Entry :=
  match Json.read depthLimit line with
  | .ok (.object members) =>
    if (Json.Value.object members).isExact then .envelope (messageOf members) else .raw line
  | _ => .raw line

def text : Entry → Text
  | .envelope message => message
  | .raw line => line

def packing : Entry → Packing
  | .envelope _ => .envelope
  | .raw _ => .raw

end Entry

end SymbolLog
