/-
Texts, the blanks around them, and the first place where a mark stands.

Everything this library reads is a text, and every rule about it is a rule about
what comes first: which characters are blank at its ends, where a mark occurs for
the first time, what is left after that. A text is therefore the list of its
characters, so that each of these rules is one recursion on the text itself and
no position ever has to be carried along.
-/

set_option autoImplicit false

namespace SymbolLog

/-- A text is the list of its characters. -/
abbrev Text := List Char

/-- The digits are the ASCII ones; those of other scripts do not count. -/
def isDigit (c : Char) : Bool := '0' ≤ c && c ≤ '9'

/-! ## Blanks -/

/-- The code points with the Unicode property White_Space, as closed ranges. The
information separators U+001C to U+001F and the zero-width marks U+180E, U+200B
and U+FEFF lack the property. -/
def blankRanges : List (Nat × Nat) :=
  [(0x09, 0x0D), (0x20, 0x20), (0x85, 0x85), (0xA0, 0xA0), (0x1680, 0x1680),
    (0x2000, 0x200A), (0x2028, 0x2029), (0x202F, 0x202F), (0x205F, 0x205F),
    (0x3000, 0x3000)]

/-- A character is blank if it lies in one of the ranges of White_Space. -/
def isBlank (c : Char) : Bool :=
  blankRanges.any fun range => range.1 ≤ c.toNat && c.toNat ≤ range.2

namespace Text

def trimStart (t : Text) : Text := t.dropWhile isBlank

def trimEnd (t : Text) : Text := (t.reverse.dropWhile isBlank).reverse

def trim (t : Text) : Text := trimEnd (trimStart t)

/-! ## Marks -/

/-- The text before the first occurrence of a mark and the text after it. -/
def breakOn? (mark : Text) (t : Text) : Option (Text × Text) :=
  match mark.isPrefixOf? t with
  | some rest => some ([], rest)
  | none =>
    match t with
    | [] => none
    | c :: t => (breakOn? mark t).map fun (before, after) => (c :: before, after)

/-- What is left of a text after a mark at its start, with the mark put back. -/
theorem eq_append_of_isPrefixOf? {mark t rest : Text}
    (h : mark.isPrefixOf? t = some rest) : t = mark ++ rest := by
  induction mark generalizing t with
  | nil => exact Option.some.inj h
  | cons m mark ih =>
    cases t with
    | nil => cases h
    | cons c t =>
      replace h : (if m == c then mark.isPrefixOf? t else none) = some rest := h
      by_cases same : m = c
      · rw [same, if_pos (beq_self_eq_true c)] at h
        rw [same, ih h, List.cons_append]
      · rw [if_neg (by simpa using same)] at h
        cases h

/-- Breaking a text takes out one occurrence of the mark and nothing else. -/
theorem eq_append_of_breakOn? {mark t before after : Text}
    (h : breakOn? mark t = some (before, after)) : t = before ++ mark ++ after := by
  fun_induction breakOn? mark t generalizing before after with
  | case1 t rest found =>
    simp only [Option.some.injEq, Prod.mk.injEq] at h
    obtain ⟨rfl, rfl⟩ := h
    simpa using eq_append_of_isPrefixOf? found
  | case2 => simp at h
  | case3 c t _ ih =>
    obtain ⟨⟨b, a⟩, broken, same⟩ := Option.map_eq_some_iff.1 h
    simp only [Prod.mk.injEq] at same
    obtain ⟨rfl, rfl⟩ := same
    simp [ih broken]

/-- A mark occurs in a text if the text can be broken on it. -/
def contains (t mark : Text) : Bool := (breakOn? mark t).isSome

end Text

end SymbolLog
