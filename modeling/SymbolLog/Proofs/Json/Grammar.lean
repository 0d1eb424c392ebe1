/-
The grammar of JSON.

This is RFC 8259 as a relation between values and the texts that spell them, written
without regard to how a reader goes about it: a number has a sign, whole digits, a
fraction and an exponent, a string is a sequence of characters and escapes, and
arrays and objects are what stands between their brackets, with blanks wherever the
grammar allows them. A value keeps the spelling of its numbers and strings, so
beyond the blanks, the letter case of an exponent or a unit and the choice between a
character and its short escape the value determines the text.

How deep a value nests is part of the relation, because it is the one limit that a
reader checks on the way.
-/
import SymbolLog.Json.Reader

set_option autoImplicit false

namespace SymbolLog.Json

/-- Some of the four blanks of JSON, or none. -/
def AllSpace (w : Text) : Prop := ∀ c ∈ w, isSpace c = true

/-! ## Numbers -/

namespace Number

def IsDigits (digits : Text) : Prop := digits ≠ [] ∧ ∀ c ∈ digits, isDigit c = true

/-- Digits in which a leading zero stands alone. -/
def IsWhole (digits : Text) : Prop := IsDigits digits ∧ (digits.head? = some '0' → digits = ['0'])

/-- The sign of a number, which is written only if it is a minus. -/
def signText (negative : Bool) : Text := if negative then ['-'] else []

/-- A fraction, if there is one. -/
def SpellsFraction (fraction t : Text) : Prop :=
  fraction = [] ∧ t = [] ∨ IsDigits fraction ∧ t = '.' :: fraction

/-- The sign of an exponent; a plus may be left out. -/
def SpellsSign (negative : Bool) (t : Text) : Prop :=
  negative = true ∧ t = ['-'] ∨ negative = false ∧ (t = ['+'] ∨ t = [])

/-- An exponent is absent, or a letter, a sign and digits. -/
def SpellsExponent (exponent : Option Exponent) (t : Text) : Prop :=
  exponent = none ∧ t = [] ∨
    ∃ e letter sign, exponent = some e ∧ (letter = 'e' ∨ letter = 'E') ∧
      SpellsSign e.negative sign ∧ IsDigits e.digits ∧ t = letter :: (sign ++ e.digits)

/-- How a number is spelled: sign, whole part, fraction and exponent, one behind the other. -/
def Spells (n : Number) (t : Text) : Prop :=
  ∃ fraction exponent, IsWhole n.whole ∧ SpellsFraction n.fraction fraction ∧
    SpellsExponent n.exponent exponent ∧
    t = signText n.negative ++ (n.whole ++ (fraction ++ exponent))

end Number

/-! ## Strings -/

/-- The text of a string between its quotes. -/
inductive Content : List Piece → Text → Prop where
  | nil : Content [] []
  /-- A character that stands for itself. -/
  | plain {c : Char} {pieces : List Piece} {t : Text} (hquote : c ≠ '"') (hback : c ≠ '\\')
    (hcontrol : ¬ c < ' ') (htail : Content pieces t) : Content (.char c :: pieces) (c :: t)
  | short {e c : Char} {pieces : List Piece} {t : Text} (hshort : unescape? e = some c)
    (htail : Content pieces t) : Content (.char c :: pieces) ('\\' :: e :: t)
  | unit {a b c d : Char} {u : Nat} {pieces : List Piece} {t : Text}
    (hunit : hexUnit? a b c d = some u) (htail : Content pieces t) :
    Content (.unit u :: pieces) ('\\' :: 'u' :: a :: b :: c :: d :: t)

/-! ## Values -/

/-- What the grammar has a rule for: a value, and what stands between brackets unless
it is nothing. -/
inductive Phrase where
  | value (v : Value)
  | elements (values : List Value)
  | members (members : List Member)

/-- A phrase and its text, where values nest at most `depth` deep. -/
inductive Spelled : (depth : Nat) → Phrase → Text → Prop where
  | null {depth : Nat} : Spelled depth (.value .null) ['n', 'u', 'l', 'l']
  | true {depth : Nat} : Spelled depth (.value (.bool true)) ['t', 'r', 'u', 'e']
  | false {depth : Nat} : Spelled depth (.value (.bool false)) ['f', 'a', 'l', 's', 'e']
  | number {depth : Nat} {n : Number} {t : Text} (hn : n.Spells t) :
    Spelled depth (.value (.number n)) t
  | string {depth : Nat} {pieces : List Piece} {t : Text} (ht : Content pieces t) :
    Spelled depth (.value (.string pieces)) ('"' :: (t ++ ['"']))
  | emptyArray {depth : Nat} {w : Text} (hw : AllSpace w) :
    Spelled (depth + 1) (.value (.array [])) ('[' :: (w ++ [']']))
  | array {depth : Nat} {values : List Value} {w t : Text} (hw : AllSpace w)
    (ht : Spelled depth (.elements values) t) :
    Spelled (depth + 1) (.value (.array values)) ('[' :: (w ++ (t ++ [']'])))
  | emptyObject {depth : Nat} {w : Text} (hw : AllSpace w) :
    Spelled (depth + 1) (.value (.object [])) ('\x7b' :: (w ++ ['\x7d']))
  | object {depth : Nat} {members : List Member} {w t : Text} (hw : AllSpace w)
    (ht : Spelled depth (.members members) t) :
    Spelled (depth + 1) (.value (.object members)) ('\x7b' :: (w ++ (t ++ ['\x7d'])))
  | lastElement {depth : Nat} {v : Value} {t w : Text} (ht : Spelled depth (.value v) t)
    (hw : AllSpace w) : Spelled depth (.elements [v]) (t ++ w)
  | element {depth : Nat} {v : Value} {values : List Value} {t w w' others : Text}
    (ht : Spelled depth (.value v) t) (hw : AllSpace w) (hw' : AllSpace w')
    (hothers : Spelled depth (.elements values) others) :
    Spelled depth (.elements (v :: values)) (t ++ (w ++ ',' :: (w' ++ others)))
  | lastMember {depth : Nat} {key : List Piece} {v : Value} {k w₁ w₂ t w : Text}
    (hkey : Content key k) (hw₁ : AllSpace w₁) (hw₂ : AllSpace w₂)
    (ht : Spelled depth (.value v) t) (hw : AllSpace w) :
    Spelled depth (.members [(key, v)]) ('"' :: (k ++ '"' :: (w₁ ++ ':' :: (w₂ ++ (t ++ w)))))
  | member {depth : Nat} {key : List Piece} {v : Value} {members : List Member}
    {k w₁ w₂ t w w' others : Text}
    (hkey : Content key k) (hw₁ : AllSpace w₁) (hw₂ : AllSpace w₂)
    (ht : Spelled depth (.value v) t) (hw : AllSpace w) (hw' : AllSpace w')
    (hothers : Spelled depth (.members members) others) :
    Spelled depth (.members ((key, v) :: members))
      ('"' :: (k ++ '"' :: (w₁ ++ ':' :: (w₂ ++ (t ++ (w ++ ',' :: (w' ++ others)))))))

/-- A value that a whole text spells, with blanks around it. -/
def SpelledAlone (depth : Nat) (v : Value) (t : Text) : Prop :=
  ∃ w inner w', AllSpace w ∧ AllSpace w' ∧ Spelled depth (.value v) inner ∧
    t = w ++ (inner ++ w')

end SymbolLog.Json
