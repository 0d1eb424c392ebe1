/-
On which line a description stands.

A description ends at a line feed, so it is one line of what follows its mark. It is natural to
expect the line on which the mark stands, and that is not quite what the search does: the blanks
behind the mark are skipped first, a line feed is a blank, and a rest of the line that is blank is
skipped with them. What is found is the first line that has anything on it
(`trim_firstLine_trimStart`), wherever that is.

So a description stays on the line of its mark unless that line has nothing to offer and a later
one has (`firstWritten_eq_iff`). In that case the description is a line that has nothing to do with
the symbol, and there is a text for which that happens.
-/
import SymbolLog.Proofs.Log.Lines
import SymbolLog.Proofs.Symbol.Search
import Mathlib

set_option autoImplicit false

namespace SymbolLog

namespace Text

/-- The first line of a text that is not blank, without the blanks around it, or nothing if all
lines are blank. -/
def firstWritten (t : Text) : Text :=
  (((cutAfter '\n' t).map trim).find? fun line => !line.isEmpty).getD []

theorem firstLine_of_not_mem {t : Text} (h : '\n' ∉ t) : firstLine t = t := by
  rw [firstLine, List.takeWhile_eq_self_iff]
  rintro c hc
  simpa using fun heq : c = '\n' => h (heq ▸ hc)

theorem firstLine_append_feed {line : Text} (h : '\n' ∉ line) (rest : Text) :
    firstLine (line ++ '\n' :: rest) = line := by
  have hline : ∀ c ∈ line, decide (c ≠ '\n') = true := by
    intro c hc
    simpa using fun heq : c = '\n' => h (heq ▸ hc)
  rw [firstLine, List.takeWhile_append_of_pos hline, List.takeWhile_cons_of_neg (by simp),
    List.append_nil]

theorem not_mem_trimStart {c : Char} {t : Text} (h : c ∉ t) : c ∉ trimStart t :=
  fun hc => h ((List.dropWhile_sublist _).subset hc)

theorem trim_trimStart (t : Text) : trim (trimStart t) = trim t := by
  rw [trim, trimStart_of_noBlankFirst (noBlankFirst_trimStart t), trim]

/-- In a text of one line the line is the one that is written, blank or not. -/
theorem firstWritten_of_not_mem {line : Text} (hfeed : '\n' ∉ line) :
    firstWritten line = trim line := by
  by_cases hne : line = []
  · rw [hne]
    rfl
  · rw [firstWritten, cutAfter_of_not_mem hfeed hne]
    cases hline : trim line with
    | nil => simp [hline]
    | cons c rest => simp [hline]

theorem firstWritten_of_blank {line : Text} (hfeed : '\n' ∉ line) (hblank : line.AllBlank)
    (rest : Text) : firstWritten (line ++ '\n' :: rest) = firstWritten rest := by
  rw [firstWritten, cutAfter_append_cons hfeed, List.map_cons, trim_eq_nil_iff.2 hblank]
  rfl

theorem firstWritten_of_not_blank {line : Text} (hfeed : '\n' ∉ line) (h : ¬ line.AllBlank)
    (rest : Text) : firstWritten (line ++ '\n' :: rest) = trim line := by
  have htrim : ¬ (trim line).isEmpty = true := by
    rw [List.isEmpty_iff, trim_eq_nil_iff]
    exact h
  rw [firstWritten, cutAfter_append_cons hfeed, List.map_cons,
    List.find?_cons_of_pos (by simpa using htrim), Option.getD_some]

/-- A line with the line feed that ends it is skipped if it is blank. -/
theorem trimStart_of_blank_line {line : Text} (hblank : line.AllBlank) (rest : Text) :
    trimStart (line ++ '\n' :: rest) = trimStart rest := by
  have hfront : AllBlank (line ++ ['\n']) := by
    intro c hc
    rcases List.mem_append.1 hc with hc | hc
    · exact hblank c hc
    · rw [List.mem_singleton.1 hc]
      rfl
  rw [← List.singleton_append, ← List.append_assoc, trimStart_append_of_blank hfront]

/-- If it is not, only the blanks at its start are. -/
theorem trimStart_append_of_not_blank {line : Text} (h : ¬ line.AllBlank) (rest : Text) :
    trimStart (line ++ rest) = trimStart line ++ rest := by
  obtain ⟨w, hw, hline⟩ := exists_blank_trimStart line
  have hne : trimStart line ≠ [] := by
    intro hnil
    rw [hnil, List.append_nil] at hline
    exact h (hline ▸ hw)
  conv_lhs => rw [hline, List.append_assoc, trimStart_append_of_blank hw]
  exact trimStart_of_noBlankFirst (noBlankFirst_append (noBlankFirst_trimStart line) hne rest)

/-- **The line behind skipped blanks is the first line that is not blank**, as line feeds are
blanks. -/
theorem trim_firstLine_trimStart (t : Text) :
    trim (firstLine (trimStart t)) = t.firstWritten := by
  induction t using cut_induction '\n' with
  | nil => rfl
  | last line hfeed _ =>
    rw [firstLine_of_not_mem (not_mem_trimStart hfeed), trim_trimStart,
      firstWritten_of_not_mem hfeed]
  | part line rest hfeed ih =>
    by_cases hblank : AllBlank line
    · rw [trimStart_of_blank_line hblank, ih, firstWritten_of_blank hfeed hblank]
    · rw [trimStart_append_of_not_blank hblank, firstLine_append_feed (not_mem_trimStart hfeed),
        trim_trimStart, firstWritten_of_not_blank hfeed hblank]

/-- Nothing is written if and only if there is nothing but blanks. -/
theorem firstWritten_eq_nil_iff {t : Text} : t.firstWritten = [] ↔ t.AllBlank := by
  rw [← trim_firstLine_trimStart, trim_eq_nil_iff]
  constructor
  · intro h
    cases hstart : trimStart t with
    | nil => exact List.dropWhile_eq_nil_iff.1 hstart
    | cons c rest =>
      -- The first character that is not skipped ends no line.
      have hc : isBlank c = false := noBlankFirst_trimStart t c (by rw [hstart]; rfl)
      have hfeed : c ≠ '\n' := by
        rintro rfl
        cases hc
      have hmem : c ∈ firstLine (trimStart t) := by
        rw [hstart, firstLine, List.takeWhile_cons_of_pos (by simpa using hfeed)]
        exact List.mem_cons_self
      rw [h c hmem] at hc
      cases hc
  · intro h
    rw [trimStart_of_blank h]
    nofun

/-- What is written is the first line, unless that is blank and another is not. -/
theorem firstWritten_eq_iff {t : Text} :
    t.firstWritten = trim (firstLine t) ↔ ¬ AllBlank (firstLine t) ∨ t.AllBlank := by
  by_cases hline : AllBlank (firstLine t)
  · rw [trim_eq_nil_iff.2 hline, firstWritten_eq_nil_iff]
    exact (or_iff_right (not_not_intro hline)).symm
  · refine iff_of_true ?_ (.inl hline)
    induction t using cut_induction '\n' with
    | nil => rfl
    | last line hfeed _ => rw [firstWritten_of_not_mem hfeed, firstLine_of_not_mem hfeed]
    | part line rest hfeed _ =>
      rw [firstLine_append_feed hfeed] at hline ⊢
      exact firstWritten_of_not_blank hfeed hline rest

end Text

namespace Symbol

/-- Where a symbol is found, it is that of the leftmost occurrence. -/
theorem exists_leftmost_of_ofText? {t : Text} {s : Symbol} (h : ofText? t = some s) :
    ∃ o : Occurrence t, o.fields.symbol = s ∧
      ∀ other : Occurrence t, o.before.length ≤ other.before.length := by
  rw [ofText?_eq_findFrom?, Text.findFrom?_eq_some_iff] at h
  obtain ⟨before, rest, ht, hfound, hfirst⟩ := h
  obtain ⟨o, rfl, -, hsymbol⟩ := Occurrence.exists_of_found ht hfound
  refine ⟨o, hsymbol, ?_⟩
  intro other
  exact hfirst _ _ other.split (Option.isSome_of_mem other.found)

/-- **A description is the first line behind its mark that is not blank**, without the blanks
around it. It stands on the line of the mark exactly if the rest of that line is not blank, or
nothing follows but blanks. -/
theorem description_of_ofText? {t : Text} {s : Symbol} (h : ofText? t = some s) :
    ∃ o : Occurrence t,
      (∀ other : Occurrence t, o.before.length ≤ other.before.length) ∧
        s.name = o.fields.label.trim ∧ s.description = o.fields.after.firstWritten ∧
        (s.description = Text.trim (Text.firstLine o.fields.after) ↔
          ¬ Text.AllBlank (Text.firstLine o.fields.after) ∨ o.fields.after.AllBlank) := by
  obtain ⟨o, rfl, hfirst⟩ := exists_leftmost_of_ofText? h
  have hdescription : o.fields.symbol.description = o.fields.after.firstWritten :=
    Text.trim_firstLine_trimStart o.fields.after
  refine ⟨o, hfirst, rfl, hdescription, ?_⟩
  rw [hdescription]
  exact Text.firstWritten_eq_iff

/-- A description that begins on the line of its mark, behind a mark that fails. -/
def writtenRest : Text := "Symbol ID: Symbol ID:\n3 Name: N Desc: a Desc:\nb".toList

theorem description_of_ofText?_writtenRest :
    ofText? writtenRest = some ⟨['3'], ['N'], "a Desc:".toList⟩ ∧
      ∃ o : Occurrence writtenRest, "a Desc:".toList = o.fields.after.firstWritten := by
  have hfound : ofText? writtenRest = some ⟨['3'], ['N'], "a Desc:".toList⟩ := by cbv
  obtain ⟨o, -, -, hdescription, -⟩ := description_of_ofText? hfound
  exact ⟨hfound, o, hdescription⟩

/-- A description mark at the end of its line. -/
def blankRest : Text := "Symbol ID: 1 Name: A Desc:\nB".toList

/-- A description may stand on a line that its mark does not stand on: in this text, no
description mark has it on its line. -/
theorem not_description_on_its_line :
    ¬ ∀ (t : Text) (s : Symbol), ofText? t = some s →
      ∃ before after : Text, t = before ++ descriptionMark ++ after ∧
        s.description = Text.trim (Text.firstLine after) := by
  intro hall
  have hfound : ofText? blankRest = some ⟨['1'], ['A'], ['B']⟩ := by cbv
  obtain ⟨before, after, ht, hdescription⟩ := hall _ _ hfound
  have hlength : before.length ≤ 24 := by
    have htotal := congrArg List.length ht
    simp only [List.length_append] at htotal
    have hmark : descriptionMark.length = 5 := rfl
    have hblankRest : blankRest.length = 28 := rfl
    omega
  have hmark : (blankRest.drop before.length).take 5 = descriptionMark := by
    rw [ht, List.append_assoc, List.drop_left]
    rfl
  have hafter : blankRest.drop (before.length + 5) = after := by
    have hfront : (before ++ descriptionMark).length = before.length + 5 := by
      rw [List.length_append]
      rfl
    rw [ht, ← hfront, List.drop_left]
  -- The mark stands at one place only.
  have honly : ∀ n ≤ 24, (blankRest.drop n).take 5 = descriptionMark →
      blankRest.drop (n + 5) = ['\n', 'B'] := by decide
  rw [← hafter, honly _ hlength hmark] at hdescription
  cases hdescription

end Symbol

end SymbolLog
