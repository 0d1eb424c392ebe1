/-
A fragment may be copied by offsets.

Whoever writes a fragment need not carry the current run along. It is a part of the fragment,
from the place up to which everything has been written to the character that has to be escaped,
so two offsets are enough and the run is cut out when it is needed. The offsets count bytes and
characters have up to four of them, so a wrong one would stand within a character or behind the
end, and there is nothing to be cut out between such offsets (`exists_slice?_iff`).

`copied?` copies a fragment in that way. What is carried along is related to what the offsets say
by one invariant: the run is the slice between them, and what is written in the end is the same
(`Copying.IsBehind`). It is kept by every character (`exists_over?`), so no slice is refused and
the pieces are the same as well (`copied?_eq`).
-/
import SymbolLog.Proofs.Json.Decoding
import Mathlib.Data.List.Induction

set_option autoImplicit false

namespace SymbolLog

/-! ## Offsets -/

namespace Text

theorem size_cons (c : Char) (t : Text) : Utf8.size (c :: t) = c.utf8Size + Utf8.size t := rfl

theorem size_append (s t : Text) : Utf8.size (s ++ t) = Utf8.size s + Utf8.size t := by
  rw [← Utf8.length_encode, Utf8.encode_append, List.length_append, Utf8.length_encode,
    Utf8.length_encode]

/-- A text is split at the size of its beginning. -/
theorem splitAt?_size (before after : Text) :
    splitAt? (Utf8.size before) (before ++ after) = some (before, after) := by
  induction before with
  | nil => rw [show Utf8.size [] = 0 from rfl, List.nil_append]; rw [splitAt?]
  | cons c before ih =>
    obtain ⟨n, hn⟩ : ∃ n, Utf8.size (c :: before) = n + 1 :=
      Nat.exists_eq_add_one.2 (Nat.add_pos_left c.utf8Size_pos _)
    have hrest : n + 1 - c.utf8Size = Utf8.size before := by rw [← hn, size_cons]; omega
    have hfits : c.utf8Size ≤ n + 1 := by rw [← hn, size_cons]; omega
    rw [hn, List.cons_append, splitAt?, if_pos hfits, hrest, ih]
    rfl

/-- Where a text is split, the parts are its own and the first has that size. -/
theorem eq_of_splitAt? {offset : Nat} {t before after : Text}
    (h : splitAt? offset t = some (before, after)) :
    t = before ++ after ∧ Utf8.size before = offset := by
  fun_induction splitAt? offset t generalizing before after with
  | case1 t =>
    cases h
    exact ⟨rfl, rfl⟩
  | case2 => cases h
  | case3 offset c t hfits ih =>
    obtain ⟨⟨front, behind⟩, hsplit, hsame⟩ := Option.map_eq_some_iff.1 h
    cases hsame
    obtain ⟨rfl, hsize⟩ := ih hsplit
    refine ⟨rfl, ?_⟩
    rw [size_cons, hsize]
    omega
  | case4 => cases h

/-- So the offsets at which a text can be split are the sizes of its beginnings. -/
theorem splitAt?_eq_some_iff {offset : Nat} {t before after : Text} :
    splitAt? offset t = some (before, after) ↔
      t = before ++ after ∧ Utf8.size before = offset := by
  constructor
  · exact eq_of_splitAt?
  · rintro ⟨rfl, rfl⟩
    exact splitAt?_size before after

/-- A slice is a part of the text that begins at one offset and ends at the other. -/
theorem slice?_eq_some_iff {t part : Text} {start stop : Nat} :
    slice? t start stop = some part ↔
      ∃ before after, t = before ++ (part ++ after) ∧ Utf8.size before = start ∧
        Utf8.size (before ++ part) = stop := by
  simp only [slice?, Option.bind_eq_bind, Option.bind_eq_some_iff, Prod.exists,
    splitAt?_eq_some_iff, Option.some.injEq]
  constructor
  · rintro ⟨front, after, ⟨rfl, rfl⟩, before, part, ⟨rfl, rfl⟩, rfl⟩
    exact ⟨before, after, List.append_assoc _ _ _, rfl, rfl⟩
  · rintro ⟨before, after, rfl, rfl, rfl⟩
    exact ⟨before ++ part, after, ⟨(List.append_assoc _ _ _).symm, rfl⟩, before, part, ⟨rfl, rfl⟩,
      rfl⟩

/-- A slice is refused unless its ends are boundaries and in order. -/
theorem exists_slice?_iff {t : Text} {start stop : Nat} :
    (∃ part, slice? t start stop = some part) ↔
      t.IsBoundary start ∧ t.IsBoundary stop ∧ start ≤ stop := by
  simp only [slice?_eq_some_iff]
  constructor
  · rintro ⟨part, before, after, rfl, rfl, rfl⟩
    refine ⟨⟨before, part ++ after, rfl, rfl⟩, ⟨before ++ part, after, ?_, rfl⟩, ?_⟩
    · rw [List.append_assoc]
    · rw [size_append]
      exact Nat.le_add_right _ _
  · rintro ⟨⟨before, rest, rfl, rfl⟩, ⟨front, after, hsplit, rfl⟩, hle⟩
    -- Of two beginnings of a text, one begins the other, and the sizes say which.
    have hfront : before <+: front := by
      have hprefix : front <+: before ++ rest := ⟨after, hsplit.symm⟩
      obtain h | ⟨more, rfl⟩ :=
        List.prefix_or_prefix_of_prefix (List.prefix_append before rest) hprefix
      · exact h
      · rw [size_append] at hle
        cases more with
        | nil => exact ⟨[], by rw [List.append_nil, List.append_nil]⟩
        | cons c more =>
          have hpos := c.utf8Size_pos
          rw [size_cons] at hle
          omega
    obtain ⟨part, rfl⟩ := hfront
    exact ⟨part, before, after, by rw [hsplit, List.append_assoc], rfl, rfl⟩

end Text

namespace Json

/-! ## Copying -/

theorem charOffsets_append (offset : Nat) (s t : Text) :
    charOffsets offset (s ++ t)
      = charOffsets offset s ++ charOffsets (offset + Utf8.size s) t := by
  induction s generalizing offset with
  | nil => rfl
  | cons c s ih =>
    rw [List.cons_append, charOffsets, ih, charOffsets, List.cons_append, Text.size_cons,
      Nat.add_assoc]

/-- Each character begins where those before it end. -/
theorem getElem?_charOffsets (offset n : Nat) (t : Text) :
    (charOffsets offset t)[n]? = t[n]?.map fun c => (offset + Utf8.size (t.take n), c) := by
  induction t generalizing offset n with
  | nil => rfl
  | cons c t ih =>
    cases n with
    | zero => rfl
    | succ n =>
      rw [charOffsets, List.getElem?_cons_succ, ih, List.getElem?_cons_succ, List.take_succ_cons,
        Text.size_cons, Nat.add_assoc]

/-- The offsets of the first characters are known from these characters. -/
theorem take_charOffsets (offset n : Nat) (t : Text) :
    (charOffsets offset t).take n = charOffsets offset (t.take n) := by
  induction t generalizing offset n with
  | nil => rw [List.take_nil, charOffsets, List.take_nil]
  | cons c t ih =>
    cases n with
    | zero => rfl
    | succ n => rw [charOffsets, List.take_succ_cons, ih, List.take_succ_cons, charOffsets]

namespace Copying

/-- Copying has come behind some characters. Those up to `start` have been written; the run behind
it has not, and what is written in the end is as if it were carried along. -/
structure IsBehind (copying : Copying) (before run : Text) : Prop where
  start : copying.start = Utf8.size before
  whole : ∀ rest,
    copying.written ++ fragmentFrom run.reverse rest = fragmentFrom [] (before ++ run ++ rest)

/-- A printable character joins the run, and nothing is written. -/
theorem IsBehind.next_printable {copying : Copying} {before run : Text}
    (h : copying.IsBehind before run) {c : Char} (hc : isPrintable c = true) :
    copying.IsBehind before (run ++ [c]) := by
  refine ⟨h.start, ?_⟩
  intro rest
  have hwhole := h.whole (c :: rest)
  rw [fragmentFrom, if_pos hc] at hwhole
  rw [List.reverse_append, ← List.append_assoc, List.append_assoc (before ++ run)]
  exact hwhole

/-- An escape leaves nothing to be written before it. -/
theorem IsBehind.next_escaped {copying : Copying} {before run : Text}
    (h : copying.IsBehind before run) {c : Char} (hc : ¬ isPrintable c = true) :
    IsBehind ⟨copying.written ++ run :: (units c).map escapeUnit,
      Utf8.size (before ++ run) + c.utf8Size⟩ (before ++ run ++ [c]) [] := by
  refine ⟨?_, ?_⟩
  · rw [Text.size_append (before ++ run)]
    rfl
  · intro rest
    have hwhole := h.whole (c :: rest)
    rw [fragmentFrom, if_neg hc, List.reverse_reverse] at hwhole
    rw [List.append_nil, List.append_assoc (before ++ run), List.append_assoc copying.written]
    exact hwhole

/-- What has not been written yet is a slice. -/
theorem IsBehind.slice? {copying : Copying} {before run : Text} (h : copying.IsBehind before run)
    (rest : Text) :
    Text.slice? (before ++ run ++ rest) copying.start (Utf8.size (before ++ run)) = some run :=
  Text.slice?_eq_some_iff.2 ⟨before, rest, List.append_assoc _ _ _, h.start.symm, rfl⟩

/-- **Copying comes behind every character**, and no slice is refused on the way. -/
theorem exists_over? (done rest : Text) :
    ∃ copying before run, over? (done ++ rest) (charOffsets 0 done) = some copying ∧
      done = before ++ run ∧ copying.IsBehind before run := by
  induction done using List.reverseRecOn generalizing rest with
  | nil => exact ⟨begin, [], [], rfl, rfl, rfl, fun _ => rfl⟩
  | append_singleton done c ih =>
    obtain ⟨copying, before, run, hover, rfl, hcopying⟩ := ih (c :: rest)
    -- Copying over one character more is copying over those before it, then one step.
    have hstep : over? (before ++ run ++ [c] ++ rest) (charOffsets 0 (before ++ run ++ [c]))
        = next? (before ++ run ++ c :: rest) copying (Utf8.size (before ++ run), c) := by
      rw [List.append_assoc (before ++ run), List.singleton_append, charOffsets_append,
        Nat.zero_add, over?, List.foldlM_append]
      show (over? (before ++ run ++ c :: rest) (charOffsets 0 (before ++ run)) >>= _) = _
      rw [hover]
      show (next? (before ++ run ++ c :: rest) copying (Utf8.size (before ++ run), c) >>= pure) = _
      rw [bind_pure]
    rw [hstep, next?]
    -- The character joins the run, or the run is cut out and the character is escaped.
    by_cases hc : isPrintable c = true
    · rw [if_pos hc]
      exact ⟨copying, before, run ++ [c], rfl, List.append_assoc _ _ _, hcopying.next_printable hc⟩
    · rw [if_neg hc, hcopying.slice?]
      exact ⟨_, before ++ run ++ [c], [], rfl, (List.append_nil _).symm, hcopying.next_escaped hc⟩

end Copying

/-- At the end what has not been written yet is the last run, and it is a slice. -/
theorem copied?_eq (t : Text) : copied? t = some (fragmentFrom [] t) := by
  obtain ⟨copying, before, run, hover, rfl, hcopying⟩ := Copying.exists_over? t []
  have hslice := hcopying.slice? []
  have hwhole := hcopying.whole []
  rw [List.append_nil] at hover hslice hwhole
  rw [fragmentFrom, List.reverse_reverse] at hwhole
  rw [copied?, hover]
  show (Text.slice? (before ++ run) copying.start (Utf8.size (before ++ run)) >>= _) = _
  rw [hslice, ← hwhole]
  rfl

/-! ## What a character is written as -/

/-- `\u` and the hexadecimal digits of a unit, filled up with zeros to four. -/
def unitEscape (u : Nat) : Text := '\\' :: 'u' :: (Nat.toDigits 16 u).leftpad 4 '0'

/-- A character of a fragment is written as it is or by the escapes of its UTF-16 units. -/
inductive IsWritten (c : Char) : Text → Prop
  | plain (hc : ' ' ≤ c ∧ c ≤ '~') : IsWritten c [c]
  | unit (hc : ¬ (' ' ≤ c ∧ c ≤ '~')) (hunit : c.toNat < 0x10000) :
    IsWritten c (unitEscape c.toNat)
  | pair {high low : Nat} (hhigh : IsFirstHalf high) (hlow : IsSecondHalf low)
    (hpair : c.toNat = 0x10000 + (high - 0xD800) * 0x400 + (low - 0xDC00)) :
    IsWritten c (unitEscape high ++ unitEscape low)

/-- The digits of a number are those of a sixteenth of it and one more, also when they are filled
up with zeros. -/
theorem leftpad_toDigits (n u : Nat) :
    (Nat.toDigits 16 u).leftpad (n + 2) '0'
      = (Nat.toDigits 16 (u / 16)).leftpad (n + 1) '0' ++ [Nat.digitChar (u % 16)] := by
  by_cases hu : u < 16
  · have hzero : u / 16 = 0 := Nat.div_eq_of_lt hu
    rw [Nat.toDigits_of_lt_base hu, Nat.mod_eq_of_lt hu, hzero]
    show List.replicate (n + 1) '0' ++ [Nat.digitChar u]
      = List.replicate n '0' ++ ['0'] ++ [Nat.digitChar u]
    rw [← List.replicate_succ']
  · have hdigits := Nat.toDigits_of_base_le (by decide) (Nat.not_lt.1 hu)
    have hzeros : n + 2 - ((Nat.toDigits 16 (u / 16)).length + 1)
        = n + 1 - (Nat.toDigits 16 (u / 16)).length := by omega
    rw [hdigits, List.leftpad, List.leftpad, List.length_append, List.length_singleton, hzeros,
      List.append_assoc]

/-- The four digits of a unit are its digits filled up with zeros. -/
theorem escapeUnit_eq {u : Nat} (h : u < 0x10000) : escapeUnit u = unitEscape u := by
  have hlast : u / 16 / 16 / 16 < 16 := by omega
  have hfirst : (Nat.toDigits 16 (u / 16 / 16 / 16)).leftpad 1 '0'
      = [Nat.digitChar (u / 16 / 16 / 16)] := by
    rw [Nat.toDigits_of_lt_base hlast]
    rfl
  rw [unitEscape, leftpad_toDigits, leftpad_toDigits, leftpad_toDigits, hfirst, escapeUnit]
  have h1 : u / 0x1000 % 16 = u / 16 / 16 / 16 := by omega
  have h2 : u / 0x100 % 16 = u / 16 / 16 % 16 := by omega
  rw [h1, h2]
  rfl

theorem isPrintable_iff {c : Char} : isPrintable c = true ↔ ' ' ≤ c ∧ c ≤ '~' := by
  rw [isPrintable, Bool.and_eq_true, decide_eq_true_eq, decide_eq_true_eq]

/-- A character up to U+FFFF that is not printable is written as its one unit. -/
theorem asciiChar_of_unit {c : Char} (hc : ¬ (' ' ≤ c ∧ c ≤ '~')) (hunit : c.toNat < 0x10000) :
    asciiChar c = unitEscape c.toNat := by
  rw [asciiChar, if_neg (mt isPrintable_iff.1 hc), units, if_pos hunit, List.flatMap_singleton,
    escapeUnit_eq hunit]

/-- The two units of a character beyond U+FFFF are told by the character. -/
theorem asciiChar_of_pair {c : Char} {high low : Nat} (hhigh : IsFirstHalf high)
    (hlow : IsSecondHalf low)
    (hpair : c.toNat = 0x10000 + (high - 0xD800) * 0x400 + (low - 0xDC00)) :
    asciiChar c = unitEscape high ++ unitEscape low := by
  obtain ⟨hhigh, hhigh'⟩ := hhigh
  obtain ⟨hlow, hlow'⟩ := hlow
  have hc : ¬ isPrintable c = true := by
    rw [isPrintable_iff]
    rintro ⟨-, hle⟩
    have hle' : c.toNat ≤ 0x7E := hle
    omega
  have hfirst : 0xD800 + (c.toNat - 0x10000) / 0x400 = high := by omega
  have hsecond : 0xDC00 + (c.toNat - 0x10000) % 0x400 = low := by omega
  rw [asciiChar, if_neg hc, units, if_neg (by omega), hfirst, hsecond, List.flatMap_cons,
    List.flatMap_singleton, escapeUnit_eq (by omega), escapeUnit_eq (by omega)]

/-- What a character is written as, said by the range that it is in, is what the writer makes of
it. -/
theorem isWritten_iff {c : Char} {t : Text} : IsWritten c t ↔ t = asciiChar c := by
  constructor
  · intro h
    cases h with
    | plain hc => rw [asciiChar, if_pos (isPrintable_iff.2 hc)]
    | unit hc hunit => rw [asciiChar_of_unit hc hunit]
    | pair hhigh hlow hpair => rw [asciiChar_of_pair hhigh hlow hpair]
  · rintro rfl
    by_cases hc : ' ' ≤ c ∧ c ≤ '~'
    · rw [asciiChar, if_pos (isPrintable_iff.2 hc)]
      exact .plain hc
    · by_cases hunit : c.toNat < 0x10000
      · rw [asciiChar_of_unit hc hunit]
        exact .unit hc hunit
      · -- Beyond U+FFFF the two halves are computed from the character.
        have hvalid := Utf8.toNat_valid c
        have hhigh : IsFirstHalf (0xD800 + (c.toNat - 0x10000) / 0x400) :=
          ⟨by omega, by omega⟩
        have hlow : IsSecondHalf (0xDC00 + (c.toNat - 0x10000) % 0x400) :=
          ⟨by omega, by omega⟩
        have hpair : c.toNat = 0x10000 + (0xD800 + (c.toNat - 0x10000) / 0x400 - 0xD800) * 0x400
            + (0xDC00 + (c.toNat - 0x10000) % 0x400 - 0xDC00) := by omega
        rw [asciiChar_of_pair hhigh hlow hpair]
        exact .pair hhigh hlow hpair

/-- **A fragment is copied by offsets without a slip.** Copying refuses no slice and yields the
pieces of the fragment, and their bytes are those of its characters, each as it is written. When
it comes to the character at `n`, or to the end, both the offset from which it is still to write
and the offset of that character are boundaries and in order, and what has been written, followed
by the slice between them, is what the characters so far are written as. -/
theorem fragment_copied (t : Text) :
    copied? t = some (fragmentFrom [] t) ∧
      ((fragmentFrom [] t).map Utf8.encode).flatten = Utf8.encode (t.flatMap asciiChar) ∧
      (∀ c written, IsWritten c written ↔ written = asciiChar c) ∧
      ∀ n, (charOffsets 0 t)[n]? = t[n]?.map (fun c => (Utf8.size (t.take n), c)) ∧
        ∃ copying run, Copying.over? t ((charOffsets 0 t).take n) = some copying ∧
          t.IsBoundary copying.start ∧ t.IsBoundary (Utf8.size (t.take n)) ∧
          copying.start ≤ Utf8.size (t.take n) ∧
          t.slice? copying.start (Utf8.size (t.take n)) = some run ∧
          copying.written.flatten ++ run = (t.take n).flatMap asciiChar := by
  refine ⟨copied?_eq t, ?_, fun _ _ => isWritten_iff, ?_⟩
  · rw [Utf8.flatten_map_encode, flatten_fragmentFrom, List.reverse_nil, List.nil_append]
  · intro n
    refine ⟨by simpa using getElem?_charOffsets 0 n t, ?_⟩
    -- The invariant behind the first `n` characters says all of it.
    obtain ⟨copying, before, run, hover, hdone, hcopying⟩ :=
      Copying.exists_over? (t.take n) (t.drop n)
    have hslice := hcopying.slice? (t.drop n)
    have hflatten := congrArg List.flatten (hcopying.whole [])
    rw [← hdone, List.take_append_drop] at hslice
    rw [← hdone, List.append_nil, List.flatten_append, flatten_fragmentFrom,
      flatten_fragmentFrom, List.reverse_reverse, List.flatMap_nil, List.append_nil] at hflatten
    rw [List.take_append_drop] at hover
    obtain ⟨hstart, hend, hle⟩ := Text.exists_slice?_iff.1 ⟨run, hslice⟩
    exact ⟨copying, run, by rw [take_charOffsets, hover], hstart, hend, hle, hslice, hflatten⟩

-- Characters of one to four bytes, two of them escaped in a row.
example : copied? ['a', 'é', '😀', 'b'] = some
    [['a'], "\\u00e9".toList, [], "\\ud83d".toList, "\\ude00".toList, ['b']] := by
  decide

end Json

end SymbolLog
