/-
How the fields of a table are written, and that nothing is lost by it.

A reader says which texts a table holds and forgets how they were written. The splitter
below is the other half: it cuts a table into records and fields and leaves every field as
it stands, quotes included. All it knows about quotes is that each of them leads into a
quotation or out of it, so a quote that is written twice leads out and in again and needs
no rule of its own.

A splitter that is not told where the fields end finds them as they were put together
(`written_print`). Each is either the text itself or the text between quotes with its own
quotes doubled, and `WrittenAs` says that the characters of the text decide which.

What a table is sent as is the same whatever the size of its blocks (`Format.send_of_le`), so
all of this holds of the bytes that a sink receives.
-/
import SymbolLog.Proofs.Blocks
import SymbolLog.Proofs.Table.Reader
import Mathlib.Data.List.Forall2

set_option autoImplicit false

namespace SymbolLog.Table

/-! ## Written fields -/

/-- Something in a text would end its field, or open a quotation. -/
def NeedsQuotes (t : Text) : Prop := ',' ∈ t ∨ '"' ∈ t ∨ '\r' ∈ t ∨ '\n' ∈ t

/-- How a text stands in a table: as it is, or between quotes if and only if it needs
them. -/
inductive WrittenAs : Text → Text → Prop where
  | bare {t : Text} (h : ¬ NeedsQuotes t) : WrittenAs t t
  | quoted {t : Text} (h : NeedsQuotes t) : WrittenAs ('"' :: (t.flatMap quotedChar ++ ['"'])) t

theorem any_isSpecial_iff (t : Text) : t.any isSpecial = true ↔ NeedsQuotes t := by
  simp only [List.any_eq_true, isSpecial, NeedsQuotes, Bool.or_eq_true, decide_eq_true_eq]
  constructor
  · rintro ⟨c, hc, ((rfl | rfl) | rfl) | rfl⟩
    · exact .inl hc
    · exact .inr (.inl hc)
    · exact .inr (.inr (.inl hc))
    · exact .inr (.inr (.inr hc))
  · rintro (hc | hc | hc | hc)
    · exact ⟨_, hc, .inl (.inl (.inl rfl))⟩
    · exact ⟨_, hc, .inl (.inl (.inr rfl))⟩
    · exact ⟨_, hc, .inl (.inr rfl)⟩
    · exact ⟨_, hc, .inr rfl⟩

/-- The writer puts quotes around a text if it needs them. -/
theorem writtenAs_fieldPieces (t : Text) : WrittenAs (fieldPieces t).flatten t := by
  rw [flatten_fieldPieces]
  split
  · next hspecial => exact .quoted ((any_isSpecial_iff t).1 hspecial)
  · next hspecial => exact .bare fun h => hspecial ((any_isSpecial_iff t).2 h)

/-! ## The splitter -/

/-- What a splitter remembers: the records and the fields behind it, the field that it is
in, all of them as they stand, and whether it is inside quotes. -/
structure Splitter where
  records : List (List Text)
  fields : List Text
  field : Text
  inside : Bool

namespace Splitter

/-- Before the first record, and behind some records. -/
def behind (records : List (List Text)) : Splitter := ⟨records, [], [], false⟩

/-- Goes on by one character. A carriage return shows to be the end of a record only when
the line feed comes, and is taken off the field then. -/
def step (s : Splitter) (c : Char) : Splitter :=
  if s.inside then { s with field := s.field ++ [c], inside := c ≠ '"' }
  else if c = ',' then { s with fields := s.fields ++ [s.field], field := [] }
  else if c = '\n' ∧ s.field.getLast? = some '\r' then
    behind (s.records ++ [s.fields ++ [s.field.dropLast]])
  else { s with field := s.field ++ [c], inside := c = '"' }

/-- The records, at the end of the text. The last one need not be ended. -/
def finish (s : Splitter) : List (List Text) :=
  if s.fields = [] ∧ s.field = [] then s.records else s.records ++ [s.fields ++ [s.field]]

variable {records : List (List Text)} {fields : List Text} {field : Text}

theorem step_bare {c : Char} (hcomma : c ≠ ',') (hfeed : c ≠ '\n') (hquote : c ≠ '"') :
    step ⟨records, fields, field, false⟩ c = ⟨records, fields, field ++ [c], false⟩ := by
  simp [step, hcomma, hfeed, hquote]

/-- A text that needs no quotes stays in its field, and no quotation is opened. -/
theorem foldl_bare {t : Text} (h : ¬ NeedsQuotes t) :
    t.foldl step ⟨records, fields, field, false⟩ = ⟨records, fields, field ++ t, false⟩ := by
  induction t generalizing field with
  | nil => simp
  | cons c t ih =>
    simp only [NeedsQuotes, List.mem_cons, not_or] at h
    obtain ⟨⟨hcomma, hcomma'⟩, ⟨hquote, hquote'⟩, ⟨-, hreturn'⟩, ⟨hfeed, hfeed'⟩⟩ := h
    have htail : ¬ NeedsQuotes t := by
      simp only [NeedsQuotes, not_or]
      exact ⟨hcomma', hquote', hreturn', hfeed'⟩
    rw [List.foldl_cons, step_bare (Ne.symm hcomma) (Ne.symm hfeed) (Ne.symm hquote), ih htail,
      List.append_assoc, List.singleton_append]

/-- Inside quotes a character is part of the field, and so are two quotes that stand for
one. -/
theorem foldl_quotedChar (c : Char) :
    (quotedChar c).foldl step ⟨records, fields, field, true⟩
      = ⟨records, fields, field ++ quotedChar c, true⟩ := by
  by_cases hc : c = '"'
  · simp [quotedChar, hc, step]
  · simp [quotedChar, hc, step]

theorem foldl_inside (t : Text) :
    (t.flatMap quotedChar).foldl step ⟨records, fields, field, true⟩
      = ⟨records, fields, field ++ t.flatMap quotedChar, true⟩ := by
  induction t generalizing field with
  | nil => simp
  | cons c t ih =>
    rw [List.flatMap_cons, List.foldl_append, foldl_quotedChar, ih, List.append_assoc]

/-- A written field is one field, as it stands. -/
theorem foldl_writtenAs {raw t : Text} (h : WrittenAs raw t) :
    raw.foldl step (⟨records, fields, [], false⟩ : Splitter) = ⟨records, fields, raw, false⟩ := by
  cases h with
  | bare h => rw [foldl_bare h, List.nil_append]
  | quoted h =>
    -- In front of the text a quotation is opened, and behind it closed.
    have hopen : step ⟨records, fields, [], false⟩ '"' = ⟨records, fields, ['"'], true⟩ := by
      simp [step]
    have hclose (raw : Text) : step ⟨records, fields, raw, true⟩ '"'
        = ⟨records, fields, raw ++ ['"'], false⟩ := by
      simp [step]
    rw [List.foldl_cons, hopen, List.foldl_append, foldl_inside, List.foldl_cons, hclose,
      List.foldl_nil, List.singleton_append, List.cons_append]

theorem step_comma (raw : Text) :
    step ⟨records, fields, raw, false⟩ ',' = ⟨records, fields ++ [raw], [], false⟩ := by
  simp [step]

/-- The end of a line ends a record, and is no part of its last field. -/
theorem foldl_returnFeed (raw : Text) :
    ['\r', '\n'].foldl step ⟨records, fields, raw, false⟩
      = behind (records ++ [fields ++ [raw]]) := by
  have hreturn : step ⟨records, fields, raw, false⟩ '\r'
      = ⟨records, fields, raw ++ ['\r'], false⟩ :=
    step_bare (by decide) (by decide) (by decide)
  rw [List.foldl_cons, hreturn]
  simp [step]

theorem foldl_recordPieces (a b c : Text) :
    (recordPieces a b c).flatten.foldl step (behind records)
      = behind (records
          ++ [[(fieldPieces a).flatten, (fieldPieces b).flatten, (fieldPieces c).flatten]]) := by
  have ha := writtenAs_fieldPieces a
  have hb := writtenAs_fieldPieces b
  have hc := writtenAs_fieldPieces c
  rw [flatten_recordPieces, behind, List.foldl_append, foldl_writtenAs ha, List.foldl_cons,
    step_comma, List.foldl_append, foldl_writtenAs hb, List.foldl_cons, step_comma,
    List.foldl_append, foldl_writtenAs hc, foldl_returnFeed]
  simp

theorem foldl_symbolPieces (symbols : List Symbol) :
    (symbols.flatMap symbolPieces).flatten.foldl step (behind records)
      = behind (records ++ symbols.map fun s =>
          [(fieldPieces s.id).flatten, (fieldPieces s.name).flatten,
            (fieldPieces s.description).flatten]) := by
  induction symbols generalizing records with
  | nil => simp
  | cons s symbols ih =>
    rw [List.flatMap_cons, List.flatten_append, List.foldl_append, symbolPieces,
      foldl_recordPieces, ih, List.map_cons, List.append_assoc, List.singleton_append]

end Splitter

/-- The fields of a text as they stand in it, record by record. -/
def written (t : Text) : List (List Text) := (t.foldl Splitter.step (.behind [])).finish

/-- The fields of a table are written as their texts ask for, in all of its records. -/
theorem written_print (symbols : List Symbol) :
    List.Forall₂ (List.Forall₂ WrittenAs) (written (print symbols))
      (columns :: symbols.map fields) := by
  -- The splitter finds the fields as they were put together, and these are written as they
  -- should.
  have hsplit : written (print symbols)
      = [(fieldPieces "ID".toList).flatten, (fieldPieces "Name".toList).flatten,
          (fieldPieces "Description".toList).flatten]
        :: symbols.map fun s => [(fieldPieces s.id).flatten, (fieldPieces s.name).flatten,
          (fieldPieces s.description).flatten] := by
    rw [written, print, pieces, List.flatten_append, List.foldl_append, header,
      Splitter.foldl_recordPieces, Splitter.foldl_symbolPieces]
    simp [Splitter.finish, Splitter.behind]
  have hrecord (a b c : Text) : List.Forall₂ WrittenAs
      [(fieldPieces a).flatten, (fieldPieces b).flatten, (fieldPieces c).flatten] [a, b, c] :=
    .cons (writtenAs_fieldPieces a) (.cons (writtenAs_fieldPieces b)
      (.cons (writtenAs_fieldPieces c) .nil))
  rw [hsplit]
  refine .cons (hrecord _ _ _) ?_
  rw [List.forall₂_map_left_iff, List.forall₂_map_right_iff, List.forall₂_same]
  intro s _
  exact hrecord s.id s.name s.description

/-! ## Tables that are sent -/

/-- **A table loses nothing and has no quotes that it does not need.** Whatever the fields
of the symbols hold, a sink with room for the table receives it; it is read as its header
and one record for each symbol, by a reader for which only a carriage return with a line
feed ends a record and by one for which either of them does; and a field stands between
quotes, with its own quotes doubled, exactly if it holds a comma, a quote, a carriage
return or a line feed. -/
theorem table_lossless (symbols : List Symbol) (extra : Nat) (fault : Fault) :
    let bytes := Format.csv.render symbols
    let records := ["ID".toList, "Name".toList, "Description".toList]
      :: symbols.map fun s => [s.id, s.name, s.description]
    Format.csv.send ⟨bytes.length + extra, fault⟩ symbols = (bytes, none) ∧
      ∃ t, Utf8.decode bytes = .ok t ∧
        read .returnFeed t = some records ∧ read .either t = some records ∧
        List.Forall₂ (List.Forall₂ WrittenAs) (written t) records := by
  intro bytes records
  exact ⟨Format.send_of_le (Nat.le_add_right _ _), print symbols,
    Utf8.decode_encode (print symbols), read_print _ symbols, read_print _ symbols,
    written_print symbols⟩

end SymbolLog.Table
