/-
The lines of a log and what ends them.

A line is ended by a line feed, by a carriage return, or by the two together, and the last line
of a text may not be ended at all. A text is therefore a sequence of lines with their terminators,
and the one doubt there could be about that sequence is a carriage return before a line feed:
they may be one terminator, or two with an empty line between them. The doubt is settled by never
letting a carriage return alone stand before a line feed, and then every text is such a
sequence in exactly one way (`wellEnded_and_joined_iff`).

A reader does not look for terminators like that. It cuts at line feeds, drops a carriage return
from the end of what it has cut off and splits the rest at the others. It is shown with the lines
of a text that this comes to the same (`readings_encode`); what is left to do here is to see that
the sequence of a text has those lines (`map_line_endedLines`).
-/
import SymbolLog.Proofs.Log.Lines
import SymbolLog.Proofs.Log.Handled

set_option autoImplicit false

namespace SymbolLog

/-- A line of a text with what ends it, which is nothing where only the text ends. -/
structure EndedLine where
  line : Text
  terminator : Text
  deriving DecidableEq

namespace EndedLine

def text (p : EndedLine) : Text := p.line ++ p.terminator

/-- The line is ended by a line feed, by both, or by a carriage return. -/
def IsEnded (p : EndedLine) : Prop :=
  p.terminator = ['\n'] ∨ p.terminator = ['\r', '\n'] ∨ p.terminator = ['\r']

/-- The text that a sequence of lines is. -/
def joined (pieces : List EndedLine) : Text := pieces.flatMap text

/-- The sequences that stand for texts. Only the last terminator may be missing, and then there
is something on the line; and no carriage return alone is directly before a line feed. -/
structure WellEnded (pieces : List EndedLine) : Prop where
  oneLine : ∀ p ∈ pieces, p.line.OneLine
  ended : ∀ before p after, pieces = before ++ p :: after →
    p.IsEnded ∨ p.terminator = [] ∧ p.line ≠ [] ∧ after = []
  unpaired : ∀ before p after, pieces = before ++ p :: after →
    p.terminator = ['\r'] → (joined after).head? ≠ some '\n'

variable {p : EndedLine} {pieces : List EndedLine}

@[simp] theorem joined_nil : joined [] = [] := rfl

@[simp] theorem joined_cons : joined (p :: pieces) = p.line ++ (p.terminator ++ joined pieces) := by
  simp [joined, text]

theorem wellEnded_nil : WellEnded [] where
  oneLine := by simp
  ended := by simp
  unpaired := by simp

/-- The first line of a text and what ends it. The last two conditions are about the rest, so a
sequence may be gone through from the front. -/
theorem wellEnded_cons :
    WellEnded (p :: pieces) ↔
      p.line.OneLine ∧ (p.IsEnded ∨ p.terminator = [] ∧ p.line ≠ [] ∧ pieces = []) ∧
        (p.terminator = ['\r'] → (joined pieces).head? ≠ some '\n') ∧ WellEnded pieces := by
  constructor
  · intro h
    refine ⟨h.oneLine p (by simp), h.ended [] p pieces rfl, h.unpaired [] p pieces rfl, ?_, ?_, ?_⟩
    · intro q hq
      exact h.oneLine q (by simp [hq])
    · intro before q after hsplit
      exact h.ended (p :: before) q after (by simp [hsplit])
    · intro before q after hsplit
      exact h.unpaired (p :: before) q after (by simp [hsplit])
  · rintro ⟨hline, hended, hunpaired, h⟩
    refine ⟨?_, ?_, ?_⟩
    · intro q hq
      rcases List.mem_cons.1 hq with rfl | hq
      · exact hline
      · exact h.oneLine q hq
    · intro before q after hsplit
      -- A place in the sequence is the first line or one behind it.
      rcases List.cons_eq_append_iff.1 hsplit with ⟨rfl, hq⟩ | ⟨before, rfl, hrest⟩
      · obtain ⟨rfl, rfl⟩ := List.cons.inj hq
        exact hended
      · exact h.ended before q after hrest
    · intro before q after hsplit
      rcases List.cons_eq_append_iff.1 hsplit with ⟨rfl, hq⟩ | ⟨before, rfl, hrest⟩
      · obtain ⟨rfl, rfl⟩ := List.cons.inj hq
        exact hunpaired
      · exact h.unpaired before q after hrest

/-- Puts a character at the front of the first line; if there is no line, the character is one
that nothing ends. -/
def consLine (c : Char) : List EndedLine → List EndedLine
  | [] => [⟨[c], []⟩]
  | p :: pieces => ⟨c :: p.line, p.terminator⟩ :: pieces

theorem joined_consLine (c : Char) (pieces : List EndedLine) :
    joined (consLine c pieces) = c :: joined pieces := by
  cases pieces <;> simp [consLine]

theorem WellEnded.consLine {c : Char} (hreturn : c ≠ '\r') (hfeed : c ≠ '\n')
    (h : WellEnded pieces) : WellEnded (consLine c pieces) := by
  cases pieces with
  | nil =>
    simp [EndedLine.consLine, wellEnded_cons, wellEnded_nil, Text.OneLine, Ne.symm hreturn,
      Ne.symm hfeed]
  | cons p pieces =>
    obtain ⟨hline, hended, hrest⟩ := wellEnded_cons.1 h
    refine wellEnded_cons.2 ⟨?_, ?_, hrest⟩
    · simpa [Text.OneLine, Ne.symm hreturn, Ne.symm hfeed] using hline
    · rcases hended with hended | ⟨hnone, -, hlast⟩
      · exact .inl hended
      · exact .inr ⟨hnone, by simp, hlast⟩

end EndedLine

open EndedLine

/-! ## The lines of a text with their terminators -/

namespace Text

/-- The lines of a text, each with what ends it. -/
def endedLines : Text → List EndedLine
  | [] => []
  | '\r' :: '\n' :: t => ⟨[], ['\r', '\n']⟩ :: endedLines t
  | c :: t => if c = '\r' ∨ c = '\n' then ⟨[], [c]⟩ :: endedLines t else consLine c (endedLines t)

theorem endedLines_returnFeed (t : Text) :
    endedLines ('\r' :: '\n' :: t) = ⟨[], ['\r', '\n']⟩ :: endedLines t := by
  rw [endedLines]

theorem endedLines_feed (t : Text) : endedLines ('\n' :: t) = ⟨[], ['\n']⟩ :: endedLines t := by
  rw [endedLines, if_pos (.inr rfl)]
  simp

theorem endedLines_return {t : Text} (h : t.head? ≠ some '\n') :
    endedLines ('\r' :: t) = ⟨[], ['\r']⟩ :: endedLines t := by
  rw [endedLines, if_pos (.inl rfl)]
  rintro t' - rfl
  exact h rfl

theorem endedLines_cons {c : Char} (hreturn : c ≠ '\r') (hfeed : c ≠ '\n') (t : Text) :
    endedLines (c :: t) = consLine c (endedLines t) := by
  rw [endedLines, if_neg fun h => h.elim hreturn hfeed]
  intro t' h
  exact absurd h hreturn

theorem joined_endedLines (t : Text) : joined t.endedLines = t := by
  fun_induction endedLines t with
  | case1 => rfl
  | case2 t ih => simp [ih]
  | case3 c t hpair hc ih => simp [ih]
  | case4 c t hpair hc ih => rw [joined_consLine, ih]

theorem wellEnded_endedLines (t : Text) : WellEnded t.endedLines := by
  fun_induction endedLines t with
  | case1 => exact wellEnded_nil
  | case2 t ih => simp [wellEnded_cons, OneLine, IsEnded, ih]
  | case3 c t hpair hc ih =>
    refine wellEnded_cons.2 ⟨by simp [OneLine], .inl ?_, ?_, ih⟩
    · rcases hc with rfl | rfl <;> simp [IsEnded]
    · -- The two together were looked for first, so no line feed is behind this carriage return.
      intro hreturn hfeed
      rw [joined_endedLines] at hfeed
      obtain ⟨t', rfl⟩ := List.head?_eq_some_iff.1 hfeed
      exact hpair t' (by simpa using hreturn) rfl
  | case4 c t hpair hc ih =>
    rw [not_or] at hc
    exact ih.consLine hc.1 hc.2

/-- The lines are those that are found without an eye on their terminators. -/
theorem map_line_endedLines (t : Text) : t.endedLines.map EndedLine.line = t.lines := by
  fun_induction endedLines t with
  | case1 => rfl
  | case2 t ih => simp [ih]
  | case3 c t hpair hc ih =>
    rcases hc with rfl | rfl
    · -- No line feed is behind the carriage return, or the two would have been taken together.
      rw [lines_return, List.map_cons, ih]
      intro hfeed
      obtain ⟨t', rfl⟩ := List.head?_eq_some_iff.1 hfeed
      exact hpair t' rfl rfl
    · rw [lines_feed, List.map_cons, ih]
  | case4 c t hpair hc ih =>
    rw [not_or] at hc
    rw [lines_cons hc.1 hc.2, ← ih]
    cases endedLines t <;> rfl

/-! ## There is one sequence for each text -/

/-- A piece of a line in front of a text belongs to its first line, whatever ends that. -/
theorem endedLines_append {line : Text} (h : line.OneLine) {rest : Text} {p : EndedLine}
    {others : List EndedLine} (hrest : endedLines rest = p :: others) :
    endedLines (line ++ rest) = ⟨line ++ p.line, p.terminator⟩ :: others := by
  induction line with
  | nil => exact hrest
  | cons c line ih =>
    simp only [OneLine, List.mem_cons, not_or] at h
    rw [List.cons_append, endedLines_cons (Ne.symm h.1.1) (Ne.symm h.2.1), ih ⟨h.1.2, h.2.2⟩]
    rfl

/-- A line that nothing ends is the last. -/
theorem endedLines_oneLine {line : Text} (h : line.OneLine) (hne : line ≠ []) :
    endedLines line = [⟨line, []⟩] := by
  induction line with
  | nil => exact absurd rfl hne
  | cons c line ih =>
    simp only [OneLine, List.mem_cons, not_or] at h
    rw [endedLines_cons (Ne.symm h.1.1) (Ne.symm h.2.1)]
    by_cases hline : line = []
    · rw [hline]
      rfl
    · rw [ih ⟨h.1.2, h.2.2⟩ hline]
      rfl

/-- A sequence is found again in the text that it is. -/
theorem endedLines_joined {pieces : List EndedLine} (h : WellEnded pieces) :
    endedLines (joined pieces) = pieces := by
  induction pieces with
  | nil => rfl
  | cons p pieces ih =>
    obtain ⟨hline, hended, hunpaired, hrest⟩ := wellEnded_cons.1 h
    obtain ⟨line, terminator⟩ := p
    rw [joined_cons]
    -- Either something ends the line, or it is the last and there is something on it.
    rcases hended with hended | ⟨hnone, hne, rfl⟩
    · -- The terminator begins what is behind the line, as an ended line with nothing on it.
      have hbehind : endedLines (terminator ++ joined pieces) = ⟨[], terminator⟩ :: pieces := by
        rcases hended with hfeed | hpair | hreturn
        · subst hfeed
          simp only [List.cons_append, List.nil_append, endedLines_feed, ih hrest]
        · subst hpair
          simp only [List.cons_append, List.nil_append, endedLines_returnFeed, ih hrest]
        · have hhead := hunpaired hreturn
          subst hreturn
          simp only [List.cons_append, List.nil_append, endedLines_return hhead, ih hrest]
      rw [endedLines_append hline hbehind, List.append_nil]
    · subst hnone
      simpa using endedLines_oneLine hline hne

end Text

/-- Every text is a sequence of lines with their terminators in one way. -/
theorem wellEnded_and_joined_iff {t : Text} {pieces : List EndedLine} :
    WellEnded pieces ∧ joined pieces = t ↔ pieces = t.endedLines := by
  constructor
  · rintro ⟨h, rfl⟩
    exact (Text.endedLines_joined h).symm
  · rintro rfl
    exact ⟨t.wellEnded_endedLines, t.joined_endedLines⟩

/-! ## Reading -/

namespace Reader

theorem map_fst_next? (r : Reader) : r.next?.map Prod.fst = r.readings.head? := by
  cases hnext : r.next? with
  | none => simp [readings_of_next?_none hnext]
  | some step =>
    obtain ⟨reading, after⟩ := step
    simp [readings_of_next?_some hnext]

/-- What a reader hands out when it is asked once more after some readings. -/
theorem map_fst_next?_skip (n : Nat) (r : Reader) :
    (r.skip n).next?.map Prod.fst = r.readings[n]? := by
  rw [map_fst_next?, readings_skip, List.head?_drop]

end Reader

/-- **Lines are read with universal newlines.** A text is a sequence of lines with their
terminators in exactly one way, and the reader of its bytes hands out the lines of that sequence,
numbered from one, without a fault and nothing after them. -/
theorem existsUnique_wellEnded_and_readings (t : Text) :
    ∃ pieces : List EndedLine,
      (∀ others, WellEnded others ∧ joined others = t ↔ others = pieces) ∧
        let reader := Reader.ofSource (.ofBytes (Utf8.encode t))
        reader.readings = (pieces.zipIdx 1).map (fun (p, n) => .line n p.line) ∧
          ∀ n, (reader.skip n).next?.map Prod.fst
            = pieces[n]?.map fun p => .line (n + 1) p.line := by
  refine ⟨t.endedLines, fun _ => wellEnded_and_joined_iff, ?_⟩
  intro reader
  have hreadings :
      reader.readings = (t.endedLines.zipIdx 1).map (fun (p, n) => .line n p.line) := by
    rw [readings_encode, ← Text.map_line_endedLines, Reading.ofLines, List.zipIdx_map, List.map_map]
    rfl
  refine ⟨hreadings, ?_⟩
  intro n
  rw [Reader.map_fst_next?_skip, hreadings]
  simp [Option.map_map, Function.comp_def, Nat.add_comm]

example : Text.endedLines "a\r\r\n\n\rb".toList
    = [⟨['a'], ['\r']⟩, ⟨[], ['\r', '\n']⟩, ⟨[], ['\n']⟩, ⟨[], ['\r']⟩, ⟨['b'], []⟩] := by
  decide

end SymbolLog
