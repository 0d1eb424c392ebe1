/-
A reader of comma-separated values, and what it makes of a table.

The reader is the one of RFC 4180, as a machine that takes one character after the
other: it remembers the records and the fields that are complete, the field it is in,
and how that field began. It is strict. A quote inside a field without quotes, a
character after a closing quote, and a carriage return or line feed alone outside
quotes are refused; so what it accepts is read in the same way by readers that are
more generous. One of those is the second way to end a record: either character
ends it, and a record of nothing is none.

Because the machine has no memory but its state, reading a table piece by piece is a
matter of composing moves (`List.foldlM_append`): a field leaves the machine behind
that field however it was written, and from there a comma or the end of a line is one
move, with no case left to distinguish.
-/
import SymbolLog.Table

set_option autoImplicit false

namespace SymbolLog.Table

/-! ## The reader -/

/-- What ends a record outside quotes. -/
inductive Ending where
  /-- A carriage return and a line feed, and neither of them alone. -/
  | returnFeed
  /-- Each of them, where a record of nothing does not count. -/
  | either
  deriving DecidableEq

/-- Where in a field a reader is. At the start of one it is fresh, and so it is at the start of a
record. -/
inductive Mode where
  | fresh
  | plain
  | quoted
  /-- Behind a quote that ends the quotation, unless another one follows. -/
  | closed
  /-- Between a carriage return and the line feed that has to follow. -/
  | returned
  deriving DecidableEq

/-- What a reader remembers. -/
structure Cursor where
  records : List (List Text)
  fields : List Text
  field : Text
  mode : Mode
  deriving DecidableEq

namespace Cursor

/-- Before the first record, and behind some records. -/
def behind (records : List (List Text)) : Cursor := ⟨records, [], [], .fresh⟩

def push (cur : Cursor) (c : Char) (mode : Mode) : Cursor :=
  { cur with field := cur.field ++ [c], mode }

def endField (cur : Cursor) : Cursor :=
  { cur with fields := cur.fields ++ [cur.field], field := [], mode := .fresh }

def endRecord (cur : Cursor) : Cursor := behind (cur.records ++ [cur.fields ++ [cur.field]])

def isFresh (cur : Cursor) : Bool := cur.mode = .fresh && cur.fields = []

/-- A carriage return or a line feed outside quotes. -/
def breakLine (ending : Ending) (cur : Cursor) (c : Char) : Option Cursor :=
  match ending with
  | .returnFeed => if c = '\r' then some { cur with mode := .returned } else none
  | .either => if cur.isFresh then some cur else some cur.endRecord

/-- Reads one character. -/
def step (ending : Ending) (cur : Cursor) (c : Char) : Option Cursor :=
  match cur.mode with
  | .quoted => some (if c = '"' then { cur with mode := .closed } else cur.push c .quoted)
  | .returned => if c = '\n' then some cur.endRecord else none
  | .fresh =>
    if c = ',' then some cur.endField
    else if c = '"' then some { cur with mode := .quoted }
    else if c = '\r' || c = '\n' then breakLine ending cur c
    else some (cur.push c .plain)
  | .plain =>
    if c = ',' then some cur.endField
    else if c = '"' then none
    else if c = '\r' || c = '\n' then breakLine ending cur c
    else some (cur.push c .plain)
  | .closed =>
    if c = ',' then some cur.endField
    else if c = '"' then some (cur.push c .quoted)
    else if c = '\r' || c = '\n' then breakLine ending cur c
    else none

/-- The records, at the end of the text. The last one need not be ended. -/
def finish (cur : Cursor) : Option (List (List Text)) :=
  match cur.mode with
  | .quoted | .returned => none
  | _ => some (if cur.isFresh then cur.records else cur.endRecord.records)

def run (ending : Ending) (cur : Cursor) (t : Text) : Option Cursor := t.foldlM (step ending) cur

end Cursor

/-- The records that a text holds, if it is accepted. -/
def read (ending : Ending) (t : Text) : Option (List (List Text)) :=
  ((Cursor.behind []).run ending t).bind Cursor.finish

/-! ## Written fields -/

/-- A field without a special character is written as it is, character by character. -/
theorem flatten_fieldPieces (t : Text) :
    (fieldPieces t).flatten
      = if t.any isSpecial then '"' :: (t.flatMap quotedChar ++ ['"']) else t := by
  have hplain : (t.map fun c => [c]).flatten = t := by
    rw [← List.flatMap_def]
    exact List.flatMap_singleton' t
  rw [fieldPieces]
  split
  · simp [List.flatMap_def]
  · exact hplain

theorem flatten_recordPieces (a b c : Text) :
    (recordPieces a b c).flatten = (fieldPieces a).flatten ++ ',' ::
      ((fieldPieces b).flatten ++ ',' :: ((fieldPieces c).flatten ++ ['\r', '\n'])) := by
  simp [recordPieces]

/-! ## Moves -/

namespace Cursor

variable {ending : Ending} {records : List (List Text)} {fields : List Text} {field : Text}

@[simp] theorem run_nil (cur : Cursor) : cur.run ending [] = some cur := rfl

theorem run_cons (cur : Cursor) (c : Char) (t : Text) :
    cur.run ending (c :: t) = (cur.step ending c).bind fun next => next.run ending t :=
  List.foldlM_cons

theorem run_append (cur : Cursor) (s t : Text) :
    cur.run ending (s ++ t) = (cur.run ending s).bind fun next => next.run ending t :=
  List.foldlM_append

/-- How a reader is left by a field. It depends on how the field was written. -/
def modeBehind (t : Text) : Mode :=
  if t.any isSpecial then .closed else if t = [] then .fresh else .plain

theorem step_of_not_special {mode : Mode} (hmode : mode = .fresh ∨ mode = .plain) {c : Char}
    (hc : isSpecial c = false) :
    step ending ⟨records, fields, field, mode⟩ c
      = some ⟨records, fields, field ++ [c], .plain⟩ := by
  simp only [isSpecial, Bool.or_eq_false_iff, decide_eq_false_iff_not] at hc
  obtain ⟨⟨⟨hcomma, hquote⟩, hreturn⟩, hfeed⟩ := hc
  obtain rfl | rfl := hmode
  · simp only [step, hcomma, hquote, hreturn, hfeed, decide_false, Bool.or_false, if_false,
      Bool.false_eq_true]
    rfl
  · simp only [step, hcomma, hquote, hreturn, hfeed, decide_false, Bool.or_false, if_false,
      Bool.false_eq_true]
    rfl

/-- A first character that is not special decides that the field is plain. -/
theorem run_plain {mode : Mode} (hmode : mode = .fresh ∨ mode = .plain) {t : Text}
    (ht : t ≠ []) (h : ∀ c ∈ t, isSpecial c = false) :
    run ending ⟨records, fields, field, mode⟩ t = some ⟨records, fields, field ++ t, .plain⟩ := by
  induction t generalizing field mode with
  | nil => exact absurd rfl ht
  | cons c t ih =>
    rw [run_cons, step_of_not_special hmode (h c List.mem_cons_self)]
    show run ending ⟨records, fields, field ++ [c], .plain⟩ t = _
    -- The induction is for texts that are not empty, so the last character stands apart.
    by_cases htail : t = []
    · rw [htail]
      rfl
    · rw [ih (.inr rfl) htail fun d hd => h d (List.mem_cons_of_mem c hd), List.append_assoc]
      rfl

theorem run_quotedChar (c : Char) :
    run ending ⟨records, fields, field, .quoted⟩ (quotedChar c)
      = some ⟨records, fields, field ++ [c], .quoted⟩ := by
  by_cases hc : c = '"'
  · rw [hc]
    rfl
  · rw [quotedChar, if_neg hc, run_cons]
    simp only [step, if_neg hc]
    rfl

/-- Inside quotes every text is read as it is meant. -/
theorem run_quoted (t : Text) :
    run ending ⟨records, fields, field, .quoted⟩ (t.flatMap quotedChar)
      = some ⟨records, fields, field ++ t, .quoted⟩ := by
  induction t generalizing field with
  | nil => simp
  | cons c t ih =>
    rw [List.flatMap_cons, run_append, run_quotedChar]
    show run ending ⟨records, fields, field ++ [c], .quoted⟩ _ = _
    rw [ih, List.append_assoc]
    rfl

/-- A field leaves the reader behind it, with exactly its text. -/
theorem run_fieldPieces (t : Text) :
    run ending ⟨records, fields, [], .fresh⟩ (fieldPieces t).flatten
      = some ⟨records, fields, t, modeBehind t⟩ := by
  rw [flatten_fieldPieces, modeBehind]
  by_cases hspecial : t.any isSpecial = true
  · -- A field with quotes: the first opens the quotation, and the last closes it.
    rw [if_pos hspecial, if_pos hspecial, run_cons]
    show run ending ⟨records, fields, [], .quoted⟩ _ = _
    rw [run_append, run_quoted]
    rfl
  · rw [if_neg hspecial, if_neg hspecial]
    have hplain : ∀ c ∈ t, isSpecial c = false := by
      intro c hc
      cases h : isSpecial c with
      | false => rfl
      | true => exact absurd (List.any_eq_true.2 ⟨c, hc, h⟩) hspecial
    by_cases ht : t = []
    · rw [ht]
      rfl
    · rw [if_neg ht, run_plain (.inl rfl) ht hplain, List.nil_append]

/-- However a field was written, a comma behind it ends it. -/
theorem step_comma (t : Text) :
    step ending ⟨records, fields, t, modeBehind t⟩ ','
      = some ⟨records, fields ++ [t], [], .fresh⟩ := by
  unfold modeBehind
  split
  · rfl
  split
  · rfl
  · rfl

/-- Behind a field that is not the first, the end of a line ends the record. -/
theorem run_returnFeed (first : Text) (t : Text) :
    run ending ⟨records, first :: fields, t, modeBehind t⟩ ['\r', '\n']
      = some (behind (records ++ [first :: fields ++ [t]])) := by
  unfold modeBehind
  cases ending with
  | returnFeed =>
    split
    · rfl
    split
    · rfl
    · rfl
  | either =>
    split
    · rfl
    split
    · rfl
    · rfl

theorem run_recordPieces (a b c : Text) :
    run ending (behind records) (recordPieces a b c).flatten
      = some (behind (records ++ [[a, b, c]])) := by
  rw [flatten_recordPieces, behind, run_append, run_fieldPieces]
  -- From here on it is field and comma in turn, and the `show`s say where the reader is.
  show run ending ⟨records, [], a, modeBehind a⟩ _ = _
  rw [run_cons, step_comma]
  show run ending ⟨records, [a], [], .fresh⟩ _ = _
  rw [run_append, run_fieldPieces]
  show run ending ⟨records, [a], b, modeBehind b⟩ _ = _
  rw [run_cons, step_comma]
  show run ending ⟨records, [a, b], [], .fresh⟩ _ = _
  rw [run_append, run_fieldPieces]
  exact run_returnFeed a c

theorem run_symbolPieces (symbols : List Symbol) :
    run ending (behind records) (symbols.flatMap symbolPieces).flatten
      = some (behind (records ++ symbols.map fun s => [s.id, s.name, s.description])) := by
  induction symbols generalizing records with
  | nil => simp
  | cons s symbols ih =>
    rw [List.flatMap_cons, List.flatten_append, run_append, symbolPieces, run_recordPieces]
    show run ending (behind _) _ = _
    rw [ih, List.map_cons, List.append_assoc]
    rfl

end Cursor

/-! ## Tables -/

def columns : List Text := ["ID".toList, "Name".toList, "Description".toList]

def fields (s : Symbol) : List Text := [s.id, s.name, s.description]

/-- A table is read as its columns and one record for each symbol, whatever is in them. -/
theorem read_print (ending : Ending) (symbols : List Symbol) :
    read ending (print symbols) = some (columns :: symbols.map fields) := by
  rw [read, print, pieces, List.flatten_append, Cursor.run_append, header,
    Cursor.run_recordPieces]
  show (Cursor.run ending (Cursor.behind [columns]) _).bind Cursor.finish = _
  rw [Cursor.run_symbolPieces]
  rfl

end SymbolLog.Table
