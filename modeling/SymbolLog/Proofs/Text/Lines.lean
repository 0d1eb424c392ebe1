/-
The lines of a text.

A line ends at a line feed, at a carriage return, or at the two together, and what
is left at the end of the text is one more line unless it is empty. That is the
rule as a reader of texts would put it, with one look ahead to see whether a
carriage return and a line feed belong together. How a log is cut into chunks,
decoded and split is another matter; this is what it has to come to.
-/
import SymbolLog.Text.Basic

set_option autoImplicit false

namespace SymbolLog

/-- Puts something at the front of the first of some lists; if there is none, it is a
list of its own. -/
def consFirst {α : Type} (a : α) (lists : List (List α)) : List (List α) :=
  (a :: lists.headD []) :: lists.tail

namespace Text

/-- The lines of a text, without what ends them. -/
def lines : Text → List Text
  | [] => []
  | '\r' :: '\n' :: t => [] :: lines t
  | c :: t => if c = '\r' ∨ c = '\n' then [] :: lines t else consFirst c (lines t)

@[simp] theorem lines_returnFeed (t : Text) : lines ('\r' :: '\n' :: t) = [] :: lines t := by
  rw [lines]

@[simp] theorem lines_feed (t : Text) : lines ('\n' :: t) = [] :: lines t := by
  rw [lines, if_pos (.inr rfl)]
  intro _ h
  cases h

/-- A carriage return ends a line, if no line feed follows that would belong to it. -/
theorem lines_return {t : Text} (h : t.head? ≠ some '\n') : lines ('\r' :: t) = [] :: lines t := by
  rw [lines, if_pos (.inl rfl)]
  rintro t' - rfl
  exact h rfl

theorem lines_cons {c : Char} (hreturn : c ≠ '\r') (hfeed : c ≠ '\n') (t : Text) :
    lines (c :: t) = consFirst c (lines t) := by
  rw [lines, if_neg fun h => h.elim hreturn hfeed]
  intro t' h
  exact absurd h hreturn

/-! ## Texts that are one line -/

def OneLine (line : Text) : Prop := '\r' ∉ line ∧ '\n' ∉ line

theorem lines_append {line : Text} (h : line.OneLine) {rest first : Text} {others : List Text}
    (hrest : lines rest = first :: others) : lines (line ++ rest) = (line ++ first) :: others := by
  induction line with
  | nil => exact hrest
  | cons c line ih =>
    obtain ⟨hreturn, hfeed⟩ := h
    rw [List.mem_cons, not_or] at hreturn hfeed
    rw [List.cons_append, lines_cons (Ne.symm hreturn.1) (Ne.symm hfeed.1),
      ih ⟨hreturn.2, hfeed.2⟩]
    rfl

/-- A line that nothing ends is a line all the same, unless it is empty. -/
theorem lines_oneLine {line : Text} (h : line.OneLine) (hne : line ≠ []) : lines line = [line] := by
  induction line with
  | nil => exact absurd rfl hne
  | cons c line ih =>
    obtain ⟨hreturn, hfeed⟩ := h
    rw [List.mem_cons, not_or] at hreturn hfeed
    rw [lines_cons (Ne.symm hreturn.1) (Ne.symm hfeed.1)]
    by_cases hline : line = []
    · rw [hline]
      rfl
    · rw [ih ⟨hreturn.2, hfeed.2⟩ hline]
      rfl

/-- Some lines, each ended by a line feed. -/
def ended (lines : List Text) : Text := lines.flatMap fun line => line ++ ['\n']

/-- Lines that are each ended by a line feed are told apart again. -/
theorem lines_ended {lines : List Text} (h : ∀ line ∈ lines, line.OneLine) :
    (ended lines).lines = lines := by
  induction lines with
  | nil => rfl
  | cons line lines ih =>
    have hrest := ih fun other hother => h other (List.mem_cons_of_mem line hother)
    -- The line feed begins an empty line, to which the line in front of it is added.
    have hfeed : Text.lines ('\n' :: ended lines) = [] :: lines := by rw [lines_feed, hrest]
    have hcons : ended (line :: lines) = line ++ '\n' :: ended lines := by
      simp only [ended, List.flatMap_cons, List.append_assoc, List.singleton_append]
    rw [hcons, lines_append (h line List.mem_cons_self) hfeed, List.append_nil]

end Text

end SymbolLog
