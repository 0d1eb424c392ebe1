/-
The numbers of JSON: how they are spelled, and which of them are in range.

No rule of this library asks for the value of a number. Two things matter: where
the spelling ends, and whether a reader that keeps numbers in double precision
would have to refuse it. That reader collects the leading digits in a word of 64
bits, remembers the power of ten by which they are to be scaled, and multiplies
the two as doubles. A number is out of range if that product is infinite; a
number that is too small is zero and no defect.

The word and the power are exact, and so are the two roundings: a natural number
is rounded to 53 binary digits by one division, hence no floating-point
operation occurs here.
-/
import SymbolLog.Text.Basic
import SymbolLog.Json.Defect

set_option autoImplicit false

namespace SymbolLog.Json

/-! ## Spelling -/

/-- The power of ten written after an `e`. -/
structure Exponent where
  negative : Bool
  digits : Text
  deriving DecidableEq

/-- A number as it is spelled. The fraction is empty if there is no point. -/
structure Number where
  negative : Bool
  whole : Text
  fraction : Text
  exponent : Option Exponent
  deriving DecidableEq

namespace Number

/-- Scans a run of digits that must not be empty; `atEnd` is the defect of a text
that ends before it. -/
def scanDigits (atEnd : Defect) (t : Text) : Except Defect (Text × Text) :=
  match t with
  | [] => .error atEnd
  | c :: _ => if isDigit c then .ok (t.span isDigit) else .error .malformed

/-- Scans the digits before the point. A leading zero stands alone. -/
def scanWhole (atEnd : Defect) (t : Text) : Except Defect (Text × Text) := do
  let (digits, rest) ← scanDigits atEnd t
  if digits.head? = some '0' ∧ digits ≠ ['0'] then .error .malformed else .ok (digits, rest)

/-- Scans the point and the digits after it, if there is a point. -/
def scanFraction (atEnd : Defect) : Text → Except Defect (Text × Text)
  | '.' :: rest => scanDigits atEnd rest
  | rest => .ok ([], rest)

def scanExponentSign : Text → Bool × Text
  | '-' :: rest => (true, rest)
  | '+' :: rest => (false, rest)
  | rest => (false, rest)

def scanExponent (atEnd : Defect) : Text → Except Defect (Option Exponent × Text)
  | [] => .ok (none, [])
  | c :: rest =>
    if c = 'e' ∨ c = 'E' then do
      let (negative, rest) := scanExponentSign rest
      let (digits, rest) ← scanDigits atEnd rest
      .ok (some { negative, digits }, rest)
    else .ok (none, c :: rest)

def scanSign : Text → Bool × Text
  | '-' :: rest => (true, rest)
  | rest => (false, rest)

/-- Scans a number and returns what follows it; `atEnd` is the defect of a text that
ends within the number. -/
def scan (atEnd : Defect) (t : Text) : Except Defect (Number × Text) := do
  let (negative, t) := scanSign t
  let (whole, t) ← scanWhole atEnd t
  let (fraction, t) ← scanFraction atEnd t
  let (exponent, t) ← scanExponent atEnd t
  .ok ({ negative, whole, fraction, exponent }, t)

/-! ## Range -/

def digitValue (c : Char) : Nat := c.toNat - '0'.toNat

def digitsValue (digits : Text) : Nat := digits.foldl (fun n c => n * 10 + digitValue c) 0

/-- Appends digits to a word of 64 bits while they fit, and returns those left over
from the first that does not. -/
def fillWord (word : Nat) : Text → Nat × Text
  | [] => (word, [])
  | c :: digits =>
    if word * 10 + digitValue c < Nat.pow 2 64 then fillWord (word * 10 + digitValue c) digits
    else (word, c :: digits)

/-- The leading digits that fit a word of 64 bits and the power of ten that scales
them. Whole digits that do not fit raise the power; digits of the fraction are
taken while they fit, lower it, and are dropped from the first that does not. -/
def leading (n : Number) : Nat × Int :=
  let (word, dropped) := fillWord 0 n.whole
  let (word, unread) := fillWord word n.fraction
  (word, (dropped.length : Int) - ((n.fraction.length - unread.length : Nat) : Int))

/-- A natural number rounded to 53 binary digits; a tie goes to the even neighbour. -/
def roundToDouble (n : Nat) : Nat :=
  let unit := Nat.pow 2 (n.log2 + 1 - 53)
  let quotient := n / unit
  let rest := n % unit
  if unit < 2 * rest ∨ unit = 2 * rest ∧ quotient % 2 = 1 then (quotient + 1) * unit
  else quotient * unit

/-- The least number that double precision rounds to infinity: half a unit above the
greatest double. -/
def doubleLimit : Nat := Nat.pow 2 1024 - Nat.pow 2 970

def greatestPower : Nat := 308

/-- The greatest exponent that is read digit by digit. -/
def greatestExponent : Nat := Nat.pow 2 31 - 1

/-- A word scaled by a power of ten is a finite double. Negative powers make it
smaller, and zero stays zero under all of them. -/
def scaledFits (word : Nat) : Int → Bool
  | .negSucc _ => true
  | .ofNat power =>
    if power ≤ greatestPower then roundToDouble word * roundToDouble (Nat.pow 10 power) < doubleLimit
    else word = 0

/-- A number is in range if it is read as a finite double. -/
def inRange (n : Number) : Bool :=
  let (word, power) := n.leading
  match n.exponent with
  | none => scaledFits word power
  | some e =>
    let size := digitsValue e.digits
    -- An exponent of that size decides by its sign alone, whatever power it meets.
    if greatestExponent < size then e.negative || word = 0
    else scaledFits word (if e.negative then power - size else power + size)

end Number

end SymbolLog.Json
