/-
Blanks around a text do not matter to the search in it.

A raw line is trimmed before it is searched and the message of an envelope is not, so the two
agree only if trimming makes no difference. In front it makes none because an id mark does not
begin with a blank. Behind, every step of the search is followed with blanks put after the
text: a mark does not end with a blank, so none is completed by them; they are no digits; and
what is left of them after the fields is trimmed away. A step may lose blanks on the way, when
everything before them was blank as well, so what is carried along is that some blanks follow
and not which.

The search never needs the mark to be looked for beforehand: a text in which a symbol is found
has one (`infix_idMark_of_ofText?`).
-/
import SymbolLog.Proofs.Symbol.Pattern

set_option autoImplicit false

namespace SymbolLog

namespace Text

/-! ## Marks before blanks -/

section
variable {mark w : Text} (hlast : mark.NoBlankLast) (hw : w.AllBlank)
include hlast hw

theorem not_infix_blank (hne : mark ≠ []) : ¬ mark <:+: w := by
  intro hoccurs
  have hblank := hw _ (hoccurs.subset (List.getLast_mem hne))
  rw [hlast _ (List.getLast?_eq_some_getLast hne)] at hblank
  cases hblank

/-- Blanks do not complete a mark that ends with none. -/
theorem prefix_append_blank_iff (t : Text) : mark <+: t ++ w ↔ mark <+: t := by
  constructor
  · rintro ⟨rest, hrest⟩
    rcases List.append_eq_append_iff.1 hrest with ⟨extra, ht, -⟩ | ⟨extra, rfl, hw'⟩
    · exact ⟨extra, ht.symm⟩
    · -- What the mark takes of the blanks ends as the mark does, so it takes nothing.
      by_cases hextra : extra = []
      · refine ⟨[], ?_⟩
        rw [hextra, List.append_nil, List.append_nil]
      · have hend : Text.NoBlankLast extra := by
          intro c hc
          apply hlast
          rw [List.getLast?_append, hc, Option.some_or]
        exact absurd ⟨[], rest, hw'.symm⟩ (not_infix_blank hend hw hextra)
  · rintro ⟨rest, rfl⟩
    exact ⟨rest ++ w, (List.append_assoc _ _ _).symm⟩

theorem isPrefixOf?_append_blank (t : Text) :
    mark.isPrefixOf? (t ++ w) = (mark.isPrefixOf? t).map (· ++ w) := by
  by_cases hstart : mark <+: t
  · obtain ⟨rest, rfl⟩ := hstart
    rw [List.append_assoc, isPrefixOf?_append, isPrefixOf?_append]
    rfl
  · have hstart' : ¬ mark <+: t ++ w := mt (prefix_append_blank_iff hlast hw t).1 hstart
    rw [isPrefixOf?_eq_none_iff.2 hstart, isPrefixOf?_eq_none_iff.2 hstart']
    rfl

/-- Blanks behind a text bring no mark about: the text is broken where it was. -/
theorem breakOn?_append_blank (hne : mark ≠ []) (t : Text) :
    breakOn? mark (t ++ w)
      = (breakOn? mark t).map fun (before, after) => (before, after ++ w) := by
  induction t with
  | nil =>
    have hnil : ¬ mark <:+: [] := fun h => hne (List.infix_nil.1 h)
    rw [List.nil_append, breakOn?_eq_none_iff.2 hnil,
      breakOn?_eq_none_iff.2 (not_infix_blank hlast hw hne)]
    rfl
  | cons c t ih =>
    -- The mark is at this place with the blanks exactly if it is there without them.
    by_cases hstart : mark <+: c :: t
    · obtain ⟨rest, hrest⟩ := hstart
      rw [← hrest, List.append_assoc, breakOn?_of_prefix, breakOn?_of_prefix]
      rfl
    · have hstart' : ¬ mark <+: c :: (t ++ w) :=
        mt (prefix_append_blank_iff hlast hw (c :: t)).1 hstart
      rw [List.cons_append, breakOn?_cons_skip hstart', breakOn?_cons_skip hstart, ih,
        Option.map_map, Option.map_map]
      rfl

end

/-- A mark without blanks at its ends occurs in a text exactly if it does once the text is
trimmed. -/
theorem infix_trim_iff {mark : Text} (hne : mark ≠ []) (hmark : mark.IsTrimmed) (t : Text) :
    mark <:+: trim t ↔ mark <:+: t := by
  constructor
  · intro hoccurs
    obtain ⟨w, w', -, -, ht⟩ := exists_blank_trim t
    rw [ht]
    exact List.infix_append_of_infix_left (List.infix_append_of_infix_right hoccurs)
  · rintro ⟨front, back, rfl⟩
    rw [trim_append hne hmark]
    exact List.infix_append _ _ _

/-- The first line of a text grows by blanks at most, when blanks are put behind the text. -/
theorem exists_firstLine_append_blank {w : Text} (hw : w.AllBlank) (t : Text) :
    ∃ w' : Text, w'.AllBlank ∧ firstLine (t ++ w) = firstLine t ++ w' := by
  unfold firstLine
  rw [List.takeWhile_append]
  split
  next hline =>
    refine ⟨w.takeWhile (· ≠ '\n'), fun c hc => hw c (List.takeWhile_subset _ hc), ?_⟩
    rw [(List.takeWhile_prefix _).eq_of_length hline]
  next => exact ⟨[], nofun, (List.append_nil _).symm⟩

end Text

/-! ## The search -/

namespace Symbol

section
variable {w : Text} (hw : w.AllBlank)
include hw

theorem ofLabels?_append_blank (id t : Text) : ofLabels? id (t ++ w) = ofLabels? id t := by
  unfold ofLabels?
  rw [Text.breakOn?_append_blank noBlankLast_descriptionMark hw (List.cons_ne_nil _ _)]
  rcases Text.breakOn? descriptionMark t with _ | ⟨before, after⟩
  · rfl
  · -- Of the blanks behind the description, none is left after trimming.
    obtain ⟨w₁, hw₁, hstart⟩ := Text.exists_trimStart_append_blank hw after
    obtain ⟨w₂, hw₂, hline⟩ := Text.exists_firstLine_append_blank hw₁ (Text.trimStart after)
    dsimp only [Option.map_some]
    rw [hstart, hline, Text.trim_append_of_blank hw₂]

theorem ofFields?_append_blank (t : Text) : ofFields? (t ++ w) = ofFields? t := by
  -- The fields are read one by one, and each time the blanks stay at the end of what is left.
  obtain ⟨w₁, hw₁, hstart⟩ := Text.exists_trimStart_append_blank hw t
  have hdigits : ∀ c ∈ w₁, isDigit c = false := by
    intro c hc
    exact not_isDigit_of_isBlank (hw₁ c hc)
  unfold ofFields?
  rw [hstart, Text.span_append_of_neg hdigits]
  rcases (Text.trimStart t).span isDigit with ⟨id, rest⟩
  obtain ⟨w₂, hw₂, hrest⟩ := Text.exists_trimStart_append_blank hw₁ rest
  dsimp only
  rw [hrest, Text.isPrefixOf?_append_blank noBlankLast_nameMark hw₂]
  rcases nameMark.isPrefixOf? (Text.trimStart rest) with _ | labels
  · rfl
  · dsimp only [Option.map_some]
    rw [ofLabels?_append_blank hw₂]

/-- Blanks in front of a text contain no mark, so the search passes them. -/
theorem ofText?_blank_append (t : Text) : ofText? (w ++ t) = ofText? t := by
  induction w with
  | nil => rfl
  | cons c w ih =>
    have hstart : ¬ idMark <+: c :: (w ++ t) := by
      rintro ⟨rest, hrest⟩
      obtain ⟨rfl, -⟩ := List.cons.inj hrest
      have hblank := hw _ List.mem_cons_self
      revert hblank
      decide
    rw [List.cons_append, ofText?, Text.isPrefixOf?_eq_none_iff.2 hstart]
    exact ih fun d hd => hw d (List.mem_cons_of_mem c hd)

/-- Blanks behind a text have no influence on any place at which the search looks. -/
theorem ofText?_append_blank (t : Text) : ofText? (t ++ w) = ofText? t := by
  induction t with
  | nil =>
    have hnone := ofText?_blank_append hw []
    rwa [List.append_nil] at hnone
  | cons c t ih =>
    have hstart := Text.isPrefixOf?_append_blank isTrimmed_idMark.last hw (c :: t)
    rw [List.cons_append] at hstart ⊢
    rw [ofText?, ofText?, hstart, ih]
    rcases idMark.isPrefixOf? (c :: t) with _ | fields
    · rfl
    · dsimp only [Option.map_some, Option.bind_some]
      rw [ofFields?_append_blank hw]

end

/-- The symbol that is found in a text is the one that is found once the text is trimmed. -/
theorem ofText?_trim (t : Text) : ofText? t.trim = ofText? t := by
  obtain ⟨w, w', hw, hw', ht⟩ := Text.exists_blank_trim t
  conv_rhs => rw [ht]
  rw [ofText?_append_blank hw', ofText?_blank_append hw]

/-- Where a symbol is found, its mark occurs. So a text without the mark need not be searched. -/
theorem infix_idMark_of_ofText? {t : Text} {s : Symbol} (h : ofText? t = some s) :
    idMark <:+: t := by
  induction t with
  | nil => cases h
  | cons c t ih =>
    rw [ofText?] at h
    split at h
    next hfound =>
      obtain ⟨fields, hstart, -⟩ := Option.bind_eq_some_iff.1 hfound
      rw [Text.eq_append_of_isPrefixOf? hstart]
      exact (List.prefix_append _ _).isInfix
    · exact List.infix_cons (ih h)

end Symbol

end SymbolLog
