/-
UTF-8, in both directions.

Files hold bytes and the rest of the library reads texts. Writing is the core
library's encoding of one character, repeated. Reading is a machine that takes
one byte at a time: it stands either between two characters or within one, and
within one it knows which bytes may follow. Whatever is refused is refused at the
first byte that rules the text out, and the report says where the broken
character begins and how many of its bytes were still in order. Bytes that end
within a character are told apart from bytes that are wrong.

The ranges of the second byte carry everything that is special about UTF-8: they
exclude over-long forms (after E0 and F0), surrogates (after ED) and values above
U+10FFFF (after F4).

An offset into a text counts its bytes, so not every offset is a place to cut it.
-/
import SymbolLog.Text.Basic

set_option autoImplicit false

namespace SymbolLog

/-- The contents of a file. -/
abbrev Bytes := List UInt8

namespace Utf8

/-! ## Writing -/

def encode (t : Text) : Bytes := t.flatMap String.utf8EncodeChar

def size (t : Text) : Nat := t.foldr (fun c bytes => c.utf8Size + bytes) 0

@[simp] theorem encode_append (s t : Text) : encode (s ++ t) = encode s ++ encode t := by
  simp [encode]

theorem length_encode (t : Text) : (encode t).length = size t := by
  induction t with
  | nil => rfl
  | cons c t ih =>
    show (String.utf8EncodeChar c ++ encode t).length = c.utf8Size + size t
    rw [List.length_append, String.length_utf8EncodeChar, ih]

/-! ## Reading -/

/-- Why bytes are no text. -/
inductive Malformed where
  /-- A character begins at `index` and is broken after `length` bytes, counting
  at least its first. -/
  | invalid (length index : Nat)
  /-- A character begins at `index` and the bytes end within it. -/
  | incomplete (index : Nat)
  deriving DecidableEq

def Malformed.message : Malformed → String
  | .invalid length index => s!"invalid utf-8 sequence of {length} bytes from index {index}"
  | .incomplete index => s!"incomplete utf-8 byte sequence from index {index}"

/-- A closed range of bytes. -/
structure ByteRange where
  low : UInt8
  high : UInt8
  deriving DecidableEq

def ByteRange.holds (range : ByteRange) (b : UInt8) : Bool := range.low ≤ b && b ≤ range.high

/-- The bytes that continue a character, where nothing narrower is asked. -/
def continuation : ByteRange := ⟨0x80, 0xBF⟩

/-- What the first byte of a longer character says about the rest of it. -/
structure Lead where
  bits : Nat
  /-- The bytes that may come second. -/
  second : ByteRange
  /-- How many bytes follow the second. -/
  further : Nat

/-- The characters of two, three and four bytes, by their first byte. -/
def lead? (b : UInt8) : Option Lead :=
  -- C0 and C1 could begin over-long forms only, and F5 to FF nothing at all.
  if 0xC2 ≤ b && b ≤ 0xDF then some ⟨b.toNat - 0xC0, continuation, 0⟩
  else if b = 0xE0 then some ⟨0x0, ⟨0xA0, 0xBF⟩, 1⟩
  else if b = 0xED then some ⟨0xD, ⟨0x80, 0x9F⟩, 1⟩
  else if 0xE1 ≤ b && b ≤ 0xEF then some ⟨b.toNat - 0xE0, continuation, 1⟩
  else if b = 0xF0 then some ⟨0x0, ⟨0x90, 0xBF⟩, 2⟩
  else if b = 0xF4 then some ⟨0x4, ⟨0x80, 0x8F⟩, 2⟩
  else if 0xF1 ≤ b && b ≤ 0xF3 then some ⟨b.toNat - 0xF0, continuation, 2⟩
  else none

/-- A character that has begun and is not complete. -/
structure Unfinished where
  start : Nat
  seen : Nat
  bits : Nat
  /-- The bytes that may come next. -/
  next : ByteRange
  /-- How many bytes follow the next. -/
  further : Nat

/-- Reads on from within a character, or from between two; `index` is the place of
the next byte. -/
def decodeFrom : Option Unfinished → Nat → Bytes → Except Malformed Text
  | none, _, [] => .ok []
  | some p, _, [] => .error (.incomplete p.start)
  | none, index, b :: rest =>
    if b < 0x80 then (Char.ofNat b.toNat :: ·) <$> decodeFrom none (index + 1) rest
    else
      match lead? b with
      | none => .error (.invalid 1 index)
      | some lead =>
        decodeFrom (some ⟨index, 1, lead.bits, lead.second, lead.further⟩) (index + 1) rest
  | some p, index, b :: rest =>
    if p.next.holds b then
      let bits := p.bits * 64 + b.toNat % 64
      match p.further with
      | 0 => (Char.ofNat bits :: ·) <$> decodeFrom none (index + 1) rest
      | further + 1 =>
        decodeFrom (some ⟨p.start, p.seen + 1, bits, continuation, further⟩) (index + 1) rest
    -- The byte that does not fit is no part of the broken character.
    else .error (.invalid p.seen p.start)

def decode (bytes : Bytes) : Except Malformed Text := decodeFrom none 0 bytes

end Utf8

namespace Text

/-! ## Offsets -/

/-- An offset into the bytes of a text is a boundary if no character extends over it. -/
def IsBoundary (t : Text) (offset : Nat) : Prop :=
  ∃ before after, t = before ++ after ∧ Utf8.size before = offset

/-- A text cut in two at an offset, which has to be a boundary. -/
def splitAt? : Nat → Text → Option (Text × Text)
  | 0, t => some ([], t)
  | _ + 1, [] => none
  | offset + 1, c :: t =>
    if c.utf8Size ≤ offset + 1 then
      (splitAt? (offset + 1 - c.utf8Size) t).map fun (before, after) => (c :: before, after)
    else none

/-- The part of a text between two offsets, which have to be boundaries and in order. -/
def slice? (t : Text) (start stop : Nat) : Option Text := do
  let (front, _) ← splitAt? stop t
  let (_, part) ← splitAt? start front
  some part

end Text

end SymbolLog
