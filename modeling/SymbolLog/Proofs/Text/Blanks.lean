/-
Blanks at the ends of a text.

Trimming takes blanks away and nothing else, and afterwards there are none at the
ends. The two ends are mirror images: what is said of the start is said of the end by
reading backwards. The laws that later modules need are about texts that are put
together, and there the rule is that trimming stops at the first character that is no
blank, so whatever lies behind one is out of its reach (`trim_append`).
-/
import SymbolLog.Proofs.Text.Runs

set_option autoImplicit false

namespace SymbolLog.Text

def AllBlank (t : Text) : Prop := ∀ c ∈ t, isBlank c = true

def NoBlankFirst (t : Text) : Prop := ∀ c, t.head? = some c → isBlank c = false

def NoBlankLast (t : Text) : Prop := ∀ c, t.getLast? = some c → isBlank c = false

/-- There is nothing for trimming to take away. -/
structure IsTrimmed (t : Text) : Prop where
  first : t.NoBlankFirst
  last : t.NoBlankLast

/-! ## The start -/

variable {t w : Text}

theorem trimStart_append_of_blank (hw : w.AllBlank) : trimStart (w ++ t) = trimStart t :=
  List.dropWhile_append_of_pos hw

theorem trimStart_of_blank (hw : w.AllBlank) : trimStart w = [] := by
  have h := trimStart_append_of_blank (t := []) hw
  rwa [List.append_nil] at h

theorem trimStart_of_noBlankFirst (h : t.NoBlankFirst) : trimStart t = t := dropWhile_of_head h

theorem noBlankFirst_trimStart (t : Text) : (trimStart t).NoBlankFirst := by
  intro c hc
  have h := List.head?_dropWhile_not isBlank t
  rw [trimStart] at hc
  rw [hc] at h
  simpa using h

/-- Blanks behind a text stay there, unless there is nothing else. -/
theorem exists_trimStart_append_blank (hw : w.AllBlank) (t : Text) :
    ∃ w' : Text, w'.AllBlank ∧ trimStart (t ++ w) = trimStart t ++ w' := by
  -- If the text is blank itself, the blanks behind it are reached and go as well.
  by_cases ht : trimStart t = []
  · refine ⟨[], nofun, ?_⟩
    unfold trimStart at ht ⊢
    rw [List.dropWhile_append, ht, List.isEmpty_nil, if_pos rfl]
    exact trimStart_of_blank hw
  · refine ⟨w, hw, ?_⟩
    unfold trimStart at ht ⊢
    rw [List.dropWhile_append, if_neg]
    rwa [List.isEmpty_iff]

theorem exists_blank_trimStart (t : Text) : ∃ w : Text, w.AllBlank ∧ t = w ++ trimStart t := by
  refine ⟨t.takeWhile isBlank, ?_, List.takeWhile_append_dropWhile.symm⟩
  intro c hc
  exact List.all_eq_true.1 List.all_takeWhile c hc

/-- A text that begins with no blank is out of reach, whatever stands in front of it. -/
theorem trimStart_append (h : t.NoBlankFirst) (s : Text) :
    trimStart (s ++ t) = trimStart s ++ t := by
  rw [trimStart, List.dropWhile_append]
  split
  next hempty =>
    rw [List.isEmpty_iff] at hempty
    show trimStart t = trimStart s ++ t
    rw [trimStart_of_noBlankFirst h, trimStart, hempty, List.nil_append]
  · rfl

/-! ## The end -/

theorem AllBlank.reverse (hw : w.AllBlank) : AllBlank w.reverse :=
  fun c hc => hw c (List.mem_reverse.1 hc)

theorem NoBlankLast.reverse (h : t.NoBlankLast) : NoBlankFirst t.reverse := by
  intro c hc
  rw [List.head?_reverse] at hc
  exact h c hc

/-- The end is trimmed as the start of the text read backwards. Every law of the end comes from
the law of the start by this. -/
theorem trimEnd_eq (t : Text) : trimEnd t = (trimStart t.reverse).reverse := rfl

theorem trimEnd_append_of_blank (hw : w.AllBlank) : trimEnd (t ++ w) = trimEnd t := by
  rw [trimEnd_eq, List.reverse_append, trimStart_append_of_blank hw.reverse, trimEnd_eq]

theorem trimEnd_of_noBlankLast (h : t.NoBlankLast) : trimEnd t = t := by
  rw [trimEnd_eq, trimStart_of_noBlankFirst h.reverse, List.reverse_reverse]

theorem noBlankLast_trimEnd (t : Text) : (trimEnd t).NoBlankLast := by
  intro c hc
  rw [trimEnd_eq, List.getLast?_reverse] at hc
  exact noBlankFirst_trimStart t.reverse c hc

theorem exists_blank_trimEnd (t : Text) : ∃ w : Text, w.AllBlank ∧ t = trimEnd t ++ w := by
  obtain ⟨w, hw, ht⟩ := exists_blank_trimStart t.reverse
  refine ⟨w.reverse, hw.reverse, ?_⟩
  have h := congrArg List.reverse ht
  rw [List.reverse_reverse, List.reverse_append] at h
  exact h

theorem trimEnd_append (h : t.NoBlankLast) (s : Text) : trimEnd (t ++ s) = t ++ trimEnd s := by
  rw [trimEnd_eq, List.reverse_append, trimStart_append h.reverse, List.reverse_append,
    List.reverse_reverse, trimEnd_eq]

/-! ## Both ends -/

theorem noBlankFirst_append (h : t.NoBlankFirst) (hne : t ≠ []) (s : Text) :
    NoBlankFirst (t ++ s) := by
  obtain ⟨c, rest, rfl⟩ := List.exists_cons_of_ne_nil hne
  exact h

theorem noBlankLast_append (h : t.NoBlankLast) (hne : t ≠ []) (s : Text) :
    NoBlankLast (s ++ t) := by
  intro c hc
  rw [List.getLast?_append, List.getLast?_eq_some_getLast hne, Option.some_or] at hc
  refine h c ?_
  rw [List.getLast?_eq_some_getLast hne]
  exact hc

theorem exists_blank_trim (t : Text) :
    ∃ w w' : Text, w.AllBlank ∧ w'.AllBlank ∧ t = w ++ trim t ++ w' := by
  obtain ⟨w, hw, hstart⟩ := exists_blank_trimStart t
  obtain ⟨w', hw', hend⟩ := exists_blank_trimEnd (trimStart t)
  refine ⟨w, w', hw, hw', ?_⟩
  rw [trim, List.append_assoc, ← hend]
  exact hstart

theorem isTrimmed_trim (t : Text) : (trim t).IsTrimmed := by
  refine ⟨?_, noBlankLast_trimEnd _⟩
  intro c hc
  -- Trimming the end leaves the first character, if there is one, where it was.
  obtain ⟨w, -, hend⟩ := exists_blank_trimEnd (trimStart t)
  refine noBlankFirst_trimStart t c ?_
  rw [hend, List.head?_append, trim] at *
  rw [hc]
  rfl

theorem trim_of_isTrimmed (h : t.IsTrimmed) : trim t = t := by
  rw [trim, trimStart_of_noBlankFirst h.first, trimEnd_of_noBlankLast h.last]

/-- Blanks behind a text have no influence on what trimming leaves, also if there is nothing else
in it. -/
theorem trim_append_of_blank (hw : w.AllBlank) (t : Text) : trim (t ++ w) = trim t := by
  obtain ⟨w', hw', hstart⟩ := exists_trimStart_append_blank hw t
  rw [trim, hstart, trimEnd_append_of_blank hw', trim]

/-- Only blanks are trimmed to nothing. -/
theorem trim_eq_nil_iff : trim t = [] ↔ t.AllBlank := by
  constructor
  · intro h
    obtain ⟨w, w', hw, hw', ht⟩ := exists_blank_trim t
    rw [h, List.append_nil] at ht
    rw [ht]
    exact List.forall_mem_append.2 ⟨hw, hw'⟩
  · intro h
    rw [trim, trimStart_of_blank h]
    rfl

/-- A trimmed text is found again between blanks. -/
theorem trim_padded {w' : Text} (hw : w.AllBlank) (h : t.IsTrimmed) (hw' : w'.AllBlank) :
    trim (w ++ t ++ w') = t := by
  rw [trim, List.append_assoc, trimStart_append_of_blank hw]
  -- An empty text does not keep the blanks apart, so they are trimmed together.
  by_cases ht : t = []
  · rw [ht, List.nil_append, trimStart_of_blank hw']
    rfl
  · rw [trimStart_of_noBlankFirst (noBlankFirst_append h.first ht w'),
      trimEnd_append_of_blank hw', trimEnd_of_noBlankLast h.last]

/-- Trimming does not reach behind a text that begins and ends with no blank. -/
theorem trim_append (hne : t ≠ []) (h : t.IsTrimmed) (p q : Text) :
    trim (p ++ t ++ q) = trimStart p ++ t ++ trimEnd q := by
  have hlast : NoBlankLast (trimStart p ++ t) := noBlankLast_append h.last hne _
  rw [trim, List.append_assoc, trimStart_append (noBlankFirst_append h.first hne q),
    ← List.append_assoc, trimEnd_append hlast]

end SymbolLog.Text
