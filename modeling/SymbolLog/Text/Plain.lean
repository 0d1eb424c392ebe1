/-
What a terminal shows of a text.

A terminal does not show everything it is sent. A control character is an order to
it, and an escape opens a sequence of characters that are an order together. A
message that quotes what somebody typed may quote such orders with it, so the
quotation is cut down to the plain text: the characters that a terminal would
show, blanks included.

An escape is followed by the character that says what it opens. Most characters
are the whole order; a bracket opens a control sequence, which goes on to its
final character; the others open strings, which go on to a terminator. An escape
inside a sequence always begins a new one, and the two cancelling characters end
every sequence.

A blank that is a control character is shown even inside a sequence, unless that
is a string. It suspends the sequence: what follows is shown as well, and the
next control character takes the sequence up where it was left. A character
beyond ASCII is shown in between and ends the sequence for good.
-/
import SymbolLog.Text.Utf8

set_option autoImplicit false

namespace SymbolLog

/-! ## Control characters -/

/-- The control characters of ASCII. -/
def isControl (c : Char) : Bool := c < ' ' || c = '\x7f'

/-- The control characters that are blanks. -/
def isBlankControl (c : Char) : Bool := c = '\t' || c = '\n' || c = '\x0c' || c = '\r'

/-- The characters that cancel a sequence. -/
def isCancel (c : Char) : Bool := c = '\x18' || c = '\x1a'

def escape : Char := '\x1b'

/-- The character that ends an operating system command. -/
def bell : Char := '\x07'

/-- The byte that ends a string. -/
def stringTerminator : UInt8 := 0x9C

/-! ## Sequences -/

/-- Where a text stands between and within sequences. -/
inductive Sequence where
  | outside
  | opened
  /-- After an escape and characters that modify the one to come. -/
  | modified
  | control
  /-- At the head of a device string. -/
  | deviceHead
  /-- In the parameters of a device string. -/
  | deviceParameters
  /-- After characters that modify a device string. -/
  | deviceModifiers
  /-- Within a string that a terminator ends. -/
  | string
  | command
  deriving DecidableEq

namespace Sequence

/-- What the character after an escape opens, if it does not complete the order. -/
def ofIntroducer (c : Char) : Sequence :=
  if c < '0' then .modified
  else if c = '[' then .control
  else if c = ']' then .command
  else if c = 'P' then .deviceHead
  else if c = 'X' ∨ c = '^' ∨ c = '_' then .string
  else .outside

/-- Reads on by a printable character of ASCII. -/
def afterPrintable (s : Sequence) (c : Char) : Sequence :=
  match s with
  | .outside => .outside
  | .opened => ofIntroducer c
  | .modified => if c < '0' then .modified else .outside
  | .control => if c < '@' then .control else .outside
  | .deviceHead =>
    if c < '0' then .deviceModifiers else if c < '@' then .deviceParameters else .string
  | .deviceParameters =>
    if c < '0' then .deviceModifiers else if c < '<' then .deviceParameters else .string
  | .deviceModifiers => if c < '0' then .deviceModifiers else .string
  | .string => .string
  | .command => .command

/-- Reads on by a control character. -/
def afterControl (s : Sequence) (c : Char) : Sequence :=
  if isCancel c then .outside
  else if c = escape then .opened
  else if s = .command ∧ c = bell then .outside
  else s

/-- Reads on by a character beyond ASCII. It means nothing to a sequence, but one of
its bytes may be the terminator of a string. -/
def afterWide (s : Sequence) (c : Char) : Sequence :=
  if s = .string ∧ stringTerminator ∈ Utf8.encode [c] then .outside else s

/-- Reads on by a character that is not shown. -/
def after (s : Sequence) (c : Char) : Sequence :=
  if isControl c then s.afterControl c
  else if c < '\x7f' then s.afterPrintable c
  else s.afterWide c

/-- Blanks that are control characters are shown here. -/
def showsBlanks : Sequence → Bool
  | .outside => true
  | .opened => true
  | .modified => true
  | .control => true
  | _ => false

def shows (s : Sequence) (c : Char) : Bool :=
  if isBlankControl c then s.showsBlanks else s = .outside && !isControl c

end Sequence

/-! ## Plain text -/

namespace Text

/-- What is shown of the rest of a text. A suspended sequence shows what is shown
outside all of them. -/
def plainFrom (suspended : Bool) (s : Sequence) : Text → Text
  | [] => []
  | c :: t =>
    if (if suspended then .outside else s).shows c then
      c :: plainFrom true (if c < '\x7f' then s else .outside) t
    else plainFrom false (s.after c) t

/-- What a terminal shows of a text. -/
def plain (t : Text) : Text := plainFrom false .outside t

/-- A terminal shows nothing that is not there. -/
theorem plain_sublist (t : Text) : List.Sublist (plain t) t := by
  suffices ∀ suspended s, List.Sublist (plainFrom suspended s t) t from this false .outside
  induction t with
  | nil => intro suspended s; exact .slnil
  | cons c t ih =>
    intro suspended s
    by_cases shown : (if suspended then Sequence.outside else s).shows c = true
    · rw [plainFrom, if_pos shown]
      exact (ih _ _).cons_cons c
    · rw [plainFrom, if_neg shown]
      exact (ih _ _).cons c

/-- A text without control characters is plain. -/
theorem plain_of_forall_not_isControl {t : Text} (h : ∀ c ∈ t, isControl c = false) :
    plain t = t := by
  suffices ∀ suspended, plainFrom suspended .outside t = t from this false
  induction t with
  | nil => intro suspended; rfl
  | cons c t ih =>
    intro suspended
    have hc : isControl c = false := h c List.mem_cons_self
    have shown : Sequence.outside.shows c = true := by
      by_cases blank : isBlankControl c = true <;>
        simp [Sequence.shows, Sequence.showsBlanks, blank, hc]
    have rest := ih fun d hd => h d (List.mem_cons_of_mem c hd)
    simp [plainFrom, shown, rest]

end Text

end SymbolLog
