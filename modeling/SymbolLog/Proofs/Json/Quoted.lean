/-
Strings are read as they were written.

Writing passes a text on in runs, and three ways of writing a character meet in
it: as it is, by the escape that JSON asks for, and by its UTF-16 units. Here the
runs are taken away first: what is written is one short text for each character
(`flatten_quoted`). Reading undoes it one character at a time
(`scan_writtenChar`): the pieces found in the text of a character join to that
character whatever comes after them. That is the whole argument, and the string
as such is an induction with nothing left in it (`readText_written`).

The second half is about what is written and not about what is read: printable
ASCII and nothing else, so that no character of a text can end a line
(`isPrintable_of_mem_writtenChar`).
-/
import SymbolLog.Json.Quoted
import SymbolLog.Proofs.Text.Utf8

set_option autoImplicit false

namespace SymbolLog.Json

/-! ## Writing one character at a time -/

/-- A character that JSON does not escape, in printable ASCII. -/
def asciiChar (c : Char) : Text :=
  if isPrintable c then [c] else (units c).flatMap escapeUnit

/-- What is written for a character of a string. -/
def writtenChar (c : Char) : Text :=
  match escape? c with
  | none => asciiChar c
  | some escaped => escaped

/-- The pieces of a fragment are what is written for its characters, one behind the other. -/
theorem flatten_fragmentFrom (run t : Text) :
    (fragmentFrom run t).flatten = run.reverse ++ t.flatMap asciiChar := by
  induction t generalizing run with
  | nil => rw [fragmentFrom, List.flatMap_nil, List.flatten_singleton, List.append_nil]
  | cons c t ih =>
    rw [fragmentFrom, List.flatMap_cons, asciiChar]
    by_cases h : isPrintable c = true
    · rw [if_pos h, if_pos h, ih, List.reverse_cons, List.append_assoc]
    · rw [if_neg h, if_neg h, List.flatten_cons, List.flatten_append, ih, ← List.flatMap_def]
      rfl

/-- The run that is carried along is written as it would be on its own. -/
theorem flatten_fragment (t : Text) : (fragment t).flatten = t.flatMap asciiChar := by
  cases t with
  | nil => rfl
  | cons c t =>
    rw [fragment, flatten_fragmentFrom, List.reverse_nil, List.nil_append]
    exact List.cons_ne_nil c t

theorem flatten_contentFrom (run t : Text) :
    (contentFrom run t).flatten = run.reverse.flatMap asciiChar ++ t.flatMap writtenChar := by
  induction t generalizing run with
  | nil => rw [contentFrom, flatten_fragment, List.flatMap_nil, List.append_nil]
  | cons c t ih =>
    rw [contentFrom, List.flatMap_cons, writtenChar]
    -- A character without an escape joins the run, any other one ends it.
    cases escape? c with
    | none =>
      simp only [ih, List.reverse_cons, List.flatMap_append, List.append_assoc]
      rw [List.flatMap_cons, List.flatMap_nil, List.append_nil]
    | some escaped =>
      simp only [List.flatten_append, List.flatten_cons, ih, flatten_fragment]
      rfl

theorem flatten_quoted (t : Text) :
    (quoted t).flatten = '"' :: (t.flatMap writtenChar ++ ['"']) := by
  rw [quoted, List.flatten_cons, List.flatten_append, flatten_contentFrom]
  rfl

/-! ## Scanning one piece at a time -/

theorem scan_char {c : Char} (hquote : c ≠ '"') (hback : c ≠ '\\') (hcontrol : ¬ c < ' ')
    (t : Text) : scan (c :: t) = (.char c :: (scan t).1, (scan t).2) := by
  rw [scan.eq_def]
  simp only [hquote, hback, hcontrol, if_false]

theorem scan_short {e c : Char} (hunit : e ≠ 'u') (h : unescape? e = some c) (t : Text) :
    scan ('\\' :: e :: t) = (.char c :: (scan t).1, (scan t).2) := by
  rw [scan.eq_def]
  simp only [show ('\\' : Char) ≠ '"' by decide, if_true, hunit, if_false, h]

theorem hexValue?_digitChar {d : Nat} (h : d < 16) : hexValue? (Nat.digitChar d) = some d := by
  have all : ∀ d < 16, hexValue? (Nat.digitChar d) = some d := by decide
  exact all d h

/-- The escape of a unit is scanned as that unit: its four digits are put together again. -/
theorem scan_escapeUnit {u : Nat} (h : u < 0x10000) (t : Text) :
    scan (escapeUnit u ++ t) = (.unit u :: (scan t).1, (scan t).2) := by
  have hunit : hexUnit? (Nat.digitChar (u / 0x1000 % 16)) (Nat.digitChar (u / 0x100 % 16))
      (Nat.digitChar (u / 0x10 % 16)) (Nat.digitChar (u % 16)) = some u := by
    unfold hexUnit?
    rw [hexValue?_digitChar (by omega), hexValue?_digitChar (by omega),
      hexValue?_digitChar (by omega), hexValue?_digitChar (by omega)]
    simp only [Option.bind_eq_bind, Option.bind_some, Option.some.injEq]
    omega
  simp only [escapeUnit, List.cons_append, List.nil_append]
  rw [scan.eq_def]
  simp only [show ('\\' : Char) ≠ '"' by decide, if_true, if_false, hunit]

/-! ## Joining what a character was written as -/

/-- Some pieces spell a character if they join to it, whatever follows them. -/
def Spells (pieces : List Piece) (c : Char) : Prop :=
  ∀ rest, join (pieces ++ rest) = (join rest).cons c

theorem spells_char (c : Char) : Spells [.char c] c := fun _ => rfl

theorem join_unit {u : Nat} (hhigh : isHighUnit u = false) (hlow : isLowUnit u = false)
    (rest : List Piece) : join (.unit u :: rest) = (join rest).cons (Char.ofNat u) := by
  rw [join.eq_def]
  simp only [hhigh, hlow, Bool.false_eq_true, if_false]

theorem join_pair {u v : Nat} (hhigh : isHighUnit u = true) (hlow : isLowUnit v = true)
    (rest : List Piece) :
    join (.unit u :: .unit v :: rest) = (join rest).cons (pairChar u v) := by
  rw [join.eq_def]
  simp only [hhigh, hlow, if_true]

/-- The units of a character spell that character, be it one or two. -/
theorem spells_units (c : Char) : Spells ((units c).map Piece.unit) c := by
  intro rest
  have hvalid := Utf8.toNat_valid c
  have hhigh : ∀ u, isHighUnit u = true ↔ 0xD800 ≤ u ∧ u ≤ 0xDBFF := fun u => by
    rw [isHighUnit, Bool.and_eq_true, decide_eq_true_eq, decide_eq_true_eq]
  have hlow : ∀ u, isLowUnit u = true ↔ 0xDC00 ≤ u ∧ u ≤ 0xDFFF := fun u => by
    rw [isLowUnit, Bool.and_eq_true, decide_eq_true_eq, decide_eq_true_eq]
  unfold units
  by_cases h : c.toNat < 0x10000
  · -- A character is no surrogate, so one unit never is half of a pair.
    have hnot : isHighUnit c.toNat = false ∧ isLowUnit c.toNat = false := by
      rw [Bool.eq_false_iff, Bool.eq_false_iff, Ne, Ne, hhigh, hlow]
      omega
    rw [if_pos h, List.map_cons, List.map_nil, List.cons_append, List.nil_append,
      join_unit hnot.1 hnot.2, Char.ofNat_toNat]
  · -- Two units are put together to the code point from which they were computed.
    have hpair : pairChar (0xD800 + (c.toNat - 0x10000) / 0x400)
        (0xDC00 + (c.toNat - 0x10000) % 0x400) = c := by
      have hcode : 0x10000 + (0xD800 + (c.toNat - 0x10000) / 0x400 - 0xD800) * 0x400
          + (0xDC00 + (c.toNat - 0x10000) % 0x400 - 0xDC00) = c.toNat := by omega
      rw [pairChar, hcode, Char.ofNat_toNat]
    rw [if_neg h, List.map_cons, List.map_cons, List.map_nil, List.cons_append, List.cons_append,
      List.nil_append, join_pair ((hhigh _).2 (by omega)) ((hlow _).2 (by omega)), hpair]

/-- The escapes of some units are scanned one by one. -/
theorem scan_units (c : Char) (t : Text) :
    scan ((units c).flatMap escapeUnit ++ t)
      = ((units c).map Piece.unit ++ (scan t).1, (scan t).2) := by
  have hvalid := Utf8.toNat_valid c
  unfold units
  by_cases h : c.toNat < 0x10000
  · rw [if_pos h, List.flatMap_cons, List.flatMap_nil, List.append_nil, scan_escapeUnit h]
    rfl
  · rw [if_neg h, List.flatMap_cons, List.flatMap_cons, List.flatMap_nil, List.append_nil,
      List.append_assoc, scan_escapeUnit (by omega), scan_escapeUnit (by omega)]
    rfl

/-! ## Reading what was written -/

/-- An escape is short and undone by `unescape?`, or it is the unit of a control
character. -/
theorem escape?_eq_some {c : Char} {escaped : Text} (h : escape? c = some escaped) :
    (∃ e, escaped = ['\\', e] ∧ e ≠ 'u' ∧ unescape? e = some c) ∨
      c < ' ' ∧ escaped = escapeUnit c.toNat := by
  unfold escape? at h
  -- Seven characters have a short escape; it is looked up for each of them.
  split at h
  · next hc => rw [hc]; exact .inl ⟨_, (Option.some.inj h).symm, by decide, rfl⟩
  split at h
  · next hc => rw [hc]; exact .inl ⟨_, (Option.some.inj h).symm, by decide, rfl⟩
  split at h
  · next hc => rw [hc]; exact .inl ⟨_, (Option.some.inj h).symm, by decide, rfl⟩
  split at h
  · next hc => rw [hc]; exact .inl ⟨_, (Option.some.inj h).symm, by decide, rfl⟩
  split at h
  · next hc => rw [hc]; exact .inl ⟨_, (Option.some.inj h).symm, by decide, rfl⟩
  split at h
  · next hc => rw [hc]; exact .inl ⟨_, (Option.some.inj h).symm, by decide, rfl⟩
  split at h
  · next hc => rw [hc]; exact .inl ⟨_, (Option.some.inj h).symm, by decide, rfl⟩
  split at h
  · next hc => exact .inr ⟨hc, (Option.some.inj h).symm⟩
  · cases h

/-- A character without an escape neither ends a string nor escapes anything, and is
no control character. -/
theorem escape?_eq_none {c : Char} (h : escape? c = none) : c ≠ '"' ∧ c ≠ '\\' ∧ ¬ c < ' ' := by
  unfold escape? at h
  refine ⟨?_, ?_, ?_⟩
  · rintro rfl
    cases h
  · rintro rfl
    cases h
  · intro hc
    -- Control characters have an escape in every branch.
    rw [if_pos hc] at h
    repeat' split at h
    all_goals cases h

theorem units_of_lt {c : Char} (h : c < ' ') : units c = [c.toNat] := by
  have hc : c.toNat < 0x20 := h
  rw [units, if_pos (by omega)]

/-- Whatever is written for a character is scanned as pieces that spell it. -/
theorem scan_writtenChar (c : Char) (t : Text) :
    ∃ pieces, Spells pieces c ∧
      scan (writtenChar c ++ t) = (pieces ++ (scan t).1, (scan t).2) := by
  unfold writtenChar
  cases h : escape? c with
  | none =>
    obtain ⟨hquote, hback, hcontrol⟩ := escape?_eq_none h
    by_cases hprint : isPrintable c = true
    · refine ⟨[.char c], spells_char c, ?_⟩
      simp only [asciiChar, hprint, if_true]
      exact scan_char hquote hback hcontrol t
    · refine ⟨(units c).map Piece.unit, spells_units c, ?_⟩
      simp only [asciiChar, hprint]
      exact scan_units c t
  | some escaped =>
    -- A short escape is one piece; a unit in hexadecimal is what `units` would have written.
    obtain ⟨e, rfl, hunit, hshort⟩ | ⟨hcontrol, rfl⟩ := escape?_eq_some h
    · exact ⟨[.char c], spells_char c, scan_short hunit hshort t⟩
    · refine ⟨(units c).map Piece.unit, spells_units c, ?_⟩
      have hscan := scan_units c t
      rw [units_of_lt hcontrol, List.flatMap_cons, List.flatMap_nil, List.append_nil] at hscan
      rw [units_of_lt hcontrol]
      exact hscan

/-- The scan of a written text ends at its closing quote, with pieces that join to
the text. -/
theorem scan_written (t rest : Text) :
    ∃ pieces, join pieces = .text t ∧
      scan (t.flatMap writtenChar ++ '"' :: rest) = (pieces, .closed rest) := by
  induction t with
  | nil =>
    refine ⟨[], rfl, ?_⟩
    rw [List.flatMap_nil, List.nil_append, scan.eq_def]
    rfl
  | cons c t ih =>
    obtain ⟨pieces, hjoin, hscan⟩ := ih
    obtain ⟨first, hfirst, hchar⟩ := scan_writtenChar c (t.flatMap writtenChar ++ '"' :: rest)
    refine ⟨first ++ pieces, ?_, ?_⟩
    · rw [hfirst, hjoin]
      rfl
    · rw [List.flatMap_cons, List.append_assoc, hchar, hscan]

/-- **A text is read from what was written for it**, and the reader stops behind the closing
quote. -/
theorem readText_written (t rest : Text) :
    readText (t.flatMap writtenChar ++ '"' :: rest) = .ok (t, rest) := by
  obtain ⟨pieces, hjoin, hscan⟩ := scan_written t rest
  rw [readText, hscan]
  simp only [hjoin]

/-! ## Printable ASCII -/

theorem isPrintable_digitChar (n : Nat) : isPrintable (Nat.digitChar (n % 16)) = true := by
  have all : ∀ d < 16, isPrintable (Nat.digitChar d) = true := by decide
  exact all _ (Nat.mod_lt n (by decide))

/-- An escape is made of printable characters. -/
theorem isPrintable_of_mem_escapeUnit {c : Char} {u : Nat} (h : c ∈ escapeUnit u) :
    isPrintable c = true := by
  simp only [escapeUnit, List.mem_cons, List.not_mem_nil, or_false] at h
  obtain rfl | rfl | rfl | rfl | rfl | rfl := h
  · rfl
  · rfl
  · exact isPrintable_digitChar _
  · exact isPrintable_digitChar _
  · exact isPrintable_digitChar _
  · exact isPrintable_digitChar _

theorem isPrintable_of_unescape? {e c : Char} (h : unescape? e = some c) :
    isPrintable e = true := by
  unfold unescape? at h
  split at h
  all_goals first | rfl | cases h

theorem isPrintable_of_mem_writtenChar {c d : Char} (h : d ∈ writtenChar c) :
    isPrintable d = true := by
  unfold writtenChar at h
  cases hescape : escape? c with
  | none =>
    simp only [hescape, asciiChar] at h
    by_cases hprint : isPrintable c = true
    · rw [if_pos hprint, List.mem_singleton] at h
      rw [h]
      exact hprint
    · rw [if_neg hprint, List.mem_flatMap] at h
      obtain ⟨u, -, hu⟩ := h
      exact isPrintable_of_mem_escapeUnit hu
  | some escaped =>
    simp only [hescape] at h
    -- An escape is a short one or that of a unit.
    obtain ⟨e, rfl, -, hshort⟩ | ⟨-, rfl⟩ := escape?_eq_some hescape
    · rw [List.mem_cons, List.mem_singleton] at h
      obtain rfl | rfl := h
      · rfl
      · exact isPrintable_of_unescape? hshort
    · exact isPrintable_of_mem_escapeUnit h

/-- A string is written in printable characters only, so in ASCII. -/
theorem isPrintable_of_mem_quoted {c : Char} {t : Text} (h : c ∈ (quoted t).flatten) :
    isPrintable c = true := by
  rw [flatten_quoted] at h
  simp only [List.mem_cons, List.mem_append, List.mem_flatMap, List.not_mem_nil, or_false] at h
  obtain rfl | ⟨d, -, hd⟩ | rfl := h
  · rfl
  · exact isPrintable_of_mem_writtenChar hd
  · rfl

end SymbolLog.Json
