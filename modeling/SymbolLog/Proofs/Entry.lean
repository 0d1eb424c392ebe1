/-
Which lines are envelopes.

An envelope is a line that spells one JSON object within the limits, and its message
is that of the object (`ofLine_eq_envelope_iff`). Blanks around a line do not matter to
that, although the reader of lines takes more characters for blanks than JSON does: an
object ends with a brace on either side, so what trimming takes away are blanks of JSON
(`ofLine_trim_of_envelope`). And a trimmed line that does not begin with a brace is no
envelope, so it is looked at as it stands.
-/
import SymbolLog.Entry
import SymbolLog.Proofs.Json.Reading
import SymbolLog.Proofs.Text.Blanks

set_option autoImplicit false

namespace SymbolLog

open Json (SpelledAlone Spelled Value Member AllSpace)

theorem Json.exists_braces {depth : Nat} {members : List Member} {t : Text}
    (h : Spelled depth (.value (.object members)) t) :
    ∃ inner, t = '\x7b' :: (inner ++ ['\x7d']) := by
  cases h with
  | emptyObject _ => exact ⟨_, rfl⟩
  | @object _ _ w t _ _ =>
    refine ⟨w ++ t, ?_⟩
    rw [List.append_assoc]

/-- The space of JSON is blank, while not every blank is space. -/
theorem isBlank_of_isSpace {c : Char} (h : Json.isSpace c = true) : isBlank c = true := by
  simp only [Json.isSpace, Bool.or_eq_true, decide_eq_true_eq] at h
  obtain ((rfl | rfl) | rfl) | rfl := h
  · rfl
  · rfl
  · rfl
  · rfl

theorem allBlank_of_allSpace {w : Text} (h : AllSpace w) : w.AllBlank :=
  fun c hc => isBlank_of_isSpace (h c hc)

/-- Braces are no blanks, so what stands between them is out of reach of trimming. -/
theorem isTrimmed_braces (inner : Text) : Text.IsTrimmed ('\x7b' :: (inner ++ ['\x7d'])) := by
  refine ⟨?_, ?_⟩
  · rintro c ⟨⟩
    decide
  · intro c hc
    rw [← List.cons_append, List.getLast?_append] at hc
    cases hc
    decide

namespace Entry

/-- A line is an envelope if and only if it spells an object, with blanks around it, in
which nothing is out of the limits. -/
theorem ofLine_eq_envelope_iff {line message : Text} :
    ofLine line = .envelope message ↔
      ∃ members, SpelledAlone depthLimit (.object members) line ∧
        (Value.object members).isExact = true ∧ messageOf members = message := by
  constructor
  · intro h
    -- A line is an envelope in one branch only: it is read as an object, and the object is exact.
    rw [ofLine] at h
    split at h
    next members hread =>
      split at h
      next hexact =>
        cases h
        exact ⟨members, Json.read_eq_ok_iff.1 hread, hexact, rfl⟩
      · cases h
    · cases h
  · rintro ⟨members, hspelled, hexact, rfl⟩
    rw [ofLine, Json.read_eq_ok_iff.2 hspelled]
    exact if_pos hexact

/-- Trimming a line takes the space around an object away, and nothing of the object. -/
theorem spelledAlone_trim {members : List Member} {line : Text}
    (h : SpelledAlone depthLimit (.object members) line) :
    SpelledAlone depthLimit (.object members) line.trim ∧ ∃ inner, line.trim = '\x7b' :: inner := by
  obtain ⟨w, object, w', hw, hw', hspelled, rfl⟩ := h
  obtain ⟨inner, rfl⟩ := Json.exists_braces hspelled
  have htrim : Text.trim (w ++ ('\x7b' :: (inner ++ ['\x7d']) ++ w'))
      = '\x7b' :: (inner ++ ['\x7d']) := by
    rw [← List.append_assoc]
    exact Text.trim_padded (allBlank_of_allSpace hw) (isTrimmed_braces inner)
      (allBlank_of_allSpace hw')
  rw [htrim]
  refine ⟨⟨[], _, [], nofun, nofun, hspelled, ?_⟩, _, rfl⟩
  rw [List.nil_append, List.append_nil]

theorem ofLine_trim_of_envelope {line message : Text} (h : ofLine line = .envelope message) :
    ofLine line.trim = .envelope message := by
  obtain ⟨members, hspelled, hexact, hmessage⟩ := ofLine_eq_envelope_iff.1 h
  exact ofLine_eq_envelope_iff.2 ⟨members, (spelledAlone_trim hspelled).1, hexact, hmessage⟩

/-- A line that is no envelope is looked at as it stands. -/
theorem ofLine_eq_raw {line : Text} (h : ∀ message, ofLine line ≠ .envelope message) :
    ofLine line = .raw line := by
  cases hline : ofLine line with
  | envelope message => exact absurd hline (h message)
  | raw t =>
    rw [ofLine] at hline
    split at hline
    · split at hline
      · cases hline
      · exact hline.symm
    · exact hline.symm

/-- A trimmed line that does not begin with a brace is raw, whatever else it is. -/
theorem ofLine_eq_raw_of_first {line : Text} (htrimmed : line.IsTrimmed)
    (hfirst : line.head? ≠ some '\x7b') : ofLine line = .raw line := by
  apply ofLine_eq_raw
  intro message hmessage
  obtain ⟨members, hspelled, -, -⟩ := ofLine_eq_envelope_iff.1 hmessage
  obtain ⟨-, inner, hbrace⟩ := spelledAlone_trim hspelled
  rw [Text.trim_of_isTrimmed htrimmed] at hbrace
  rw [hbrace] at hfirst
  exact absurd rfl hfirst

end Entry

end SymbolLog
