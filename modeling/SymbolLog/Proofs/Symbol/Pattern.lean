/-
What is found in a text, and what finds it.

Two things are said of the search for a symbol. Whatever it finds is canonical: the id
is a run of digits, the name and the description lie on one line without blanks around
them, and the name ends before the first description mark. And a canonical symbol that
is written into a text behind the marks is found there, whatever stands before the
first id mark and whatever blanks stand around the fields (`ofText?_of_announces`).

The second would fail if an occurrence of a mark could begin in one field and end in
the next. It cannot, because a mark does not begin within itself and blanks are no
part of the description mark; the id mark holds a space, but only blanks and digits
stand between it and the name mark, so its own first character is enough.
-/
import SymbolLog.Symbol.Pattern
import SymbolLog.Proofs.Text.Blanks
import SymbolLog.Proofs.Text.Marks
import Mathlib.Data.List.TakeWhile

set_option autoImplicit false

namespace SymbolLog

/-! ## Canonical symbols -/

/-- A symbol as it can be found in a text. -/
structure Symbol.IsCanonical (s : Symbol) : Prop where
  id_ne_nil : s.id ≠ []
  id_digits : ∀ c ∈ s.id, isDigit c = true
  name_trimmed : s.name.IsTrimmed
  name_oneLine : '\n' ∉ s.name
  name_unmarked : ¬ descriptionMark <:+: s.name
  description_trimmed : s.description.IsTrimmed
  description_oneLine : '\n' ∉ s.description

/-! ## The marks -/

theorem isMark_descriptionMark : Text.IsMark descriptionMark := ⟨'D', "esc:".toList, rfl, by decide⟩

/-- No blank is a character of the mark of the description, so blanks before it do not join it. -/
theorem not_mem_descriptionMark_of_isBlank {c : Char} (h : isBlank c = true) :
    c ∉ descriptionMark := by
  intro hc
  have hall : descriptionMark.all (fun c => !isBlank c) = true := by decide
  have hnot := List.all_eq_true.1 hall c hc
  rw [h] at hnot
  cases hnot

theorem isTrimmed_idMark : idMark.IsTrimmed := by
  constructor
  · rintro c ⟨⟩
    decide
  · rintro c ⟨⟩
    decide

theorem noBlankLast_nameMark : nameMark.NoBlankLast := by
  rintro c ⟨⟩
  decide

theorem noBlankLast_descriptionMark : descriptionMark.NoBlankLast := by
  rintro c ⟨⟩
  decide

namespace Symbol

/-! ## What is found is canonical -/

/-- What is made of the labels is canonical: the name stands before the first mark, on one line,
and both texts are trimmed. -/
theorem isCanonical_of_ofLabels? {id t : Text} {s : Symbol} (hne : id ≠ [])
    (hdigits : ∀ c ∈ id, isDigit c = true) (h : ofLabels? id t = some s) : s.IsCanonical := by
  rw [ofLabels?] at h
  cases hbreak : Text.breakOn? descriptionMark t with
  | none => rw [hbreak] at h; cases h
  | some parts =>
    obtain ⟨before, after⟩ := parts
    rw [hbreak] at h
    dsimp only at h
    split at h
    · cases h
    next hline =>
      cases h
      obtain ⟨w, w', -, -, hbefore⟩ := Text.exists_blank_trim before
      exact
        { id_ne_nil := hne
          id_digits := hdigits
          name_trimmed := Text.isTrimmed_trim before
          name_oneLine := hline
          -- An occurrence in the name would be one before the first.
          name_unmarked := by
            intro hoccurs
            refine Text.not_infix_before (List.cons_ne_nil _ _) hbreak ?_
            rw [hbefore]
            exact List.infix_append_of_infix_left (List.infix_append_of_infix_right hoccurs)
          description_trimmed := Text.isTrimmed_trim _
          description_oneLine := by
            intro hmem
            -- Trimming takes characters away and brings none, and a first line has no line feed.
            obtain ⟨v, v', -, -, hfirst⟩ :=
              Text.exists_blank_trim (Text.firstLine (Text.trimStart after))
            have hmem' : '\n' ∈ Text.firstLine (Text.trimStart after) := by
              rw [hfirst]
              exact List.mem_append_left _ (List.mem_append_right _ hmem)
            have hall : (Text.firstLine (Text.trimStart after)).all (· ≠ '\n') = true :=
              List.all_takeWhile
            simpa using List.all_eq_true.1 hall '\n' hmem' }

theorem isCanonical_of_ofFields? {t : Text} {s : Symbol} (h : ofFields? t = some s) :
    s.IsCanonical := by
  rw [ofFields?, List.span_eq_takeWhile_dropWhile] at h
  dsimp only at h
  split at h
  · cases h
  next hne =>
    split at h
    · cases h
    · refine isCanonical_of_ofLabels? ?_ ?_ h
      · intro hnil
        rw [hnil] at hne
        exact hne rfl
      · exact List.all_eq_true.1 List.all_takeWhile

theorem isCanonical_of_ofText? {t : Text} {s : Symbol} (h : ofText? t = some s) :
    s.IsCanonical := by
  induction t with
  | nil => cases h
  | cons c rest ih =>
    rw [ofText?] at h
    split at h
    next found hfound =>
      cases h
      obtain ⟨fields, -, hfields⟩ := Option.bind_eq_some_iff.1 hfound
      exact isCanonical_of_ofFields? hfields
    · exact ih h

/-! ## A canonical symbol is found -/

/-- A text announces a symbol: all fields stand behind their marks, with blanks around
them, and `p` stands before. -/
structure Announces (p t : Text) (s : Symbol) : Prop where
  unmarked : ¬ idMark <:+: p
  spelled : ∃ w₁ w₂ w₃ w₄ w₅ : Text,
    w₁.AllBlank ∧ w₂.AllBlank ∧ w₃.AllBlank ∧ w₄.AllBlank ∧ w₅.AllBlank ∧
      t = p ++ (idMark ++ (w₁ ++ (s.id ++ (w₂ ++ (nameMark ++ (w₃ ++ s.name ++ w₄
        ++ (descriptionMark ++ (w₅ ++ s.description))))))))

/-- The first id mark is the one behind `p`, and nothing before it is tried with success. -/
theorem ofText?_of_ofFields? {s : Symbol} {p fields : Text} (hp : ¬ idMark <:+: p)
    (hfields : ofFields? fields = some s) : ofText? (p ++ (idMark ++ fields)) = some s := by
  induction p with
  | nil =>
    rw [List.nil_append]
    have hfound :
        (idMark.isPrefixOf? ('S' :: (idMark.tail ++ fields))).bind ofFields? = some s := by
      show (idMark.isPrefixOf? (idMark ++ fields)).bind ofFields? = some s
      rw [Text.isPrefixOf?_append, Option.bind_some, hfields]
    show ofText? ('S' :: (idMark.tail ++ fields)) = some s
    rw [ofText?, hfound]
  | cons c p ih =>
    rw [List.infix_cons_iff, not_or] at hp
    -- The space and the letters behind the first one are no `S`.
    have hseam : ∀ x, (idMark ++ fields).head? = some x → x ∉ idMark.tail := by
      rintro x ⟨⟩
      decide
    have hstart : ¬ idMark <+: c :: (p ++ (idMark ++ fields)) :=
      Text.not_prefix_append (List.cons_ne_nil c p) hp.1 hseam
    rw [List.cons_append, ofText?, Text.isPrefixOf?_eq_none_iff.2 hstart]
    exact ih hp.2

theorem Announces.infix_idMark {s : Symbol} {p t : Text} (h : Announces p t s) : idMark <:+: t := by
  obtain ⟨-, w₁, w₂, w₃, w₄, w₅, -, -, -, -, -, rfl⟩ := h
  exact List.infix_append' _ _ _

/-- The part of an announcement from the id mark to the description mark. -/
def labels (s : Symbol) (w₁ w₂ w₃ w₄ : Text) : Text :=
  idMark ++ (w₁ ++ (s.id ++ (w₂ ++ (nameMark ++ (w₃ ++ s.name ++ w₄ ++ descriptionMark)))))

theorem trim_labels (s : Symbol) (w₁ w₂ w₃ w₄ p rest : Text) :
    Text.trim (p ++ labels s w₁ w₂ w₃ w₄ ++ rest)
      = p.trimStart ++ labels s w₁ w₂ w₃ w₄ ++ rest.trimEnd := by
  have hne : labels s w₁ w₂ w₃ w₄ ≠ [] := List.cons_ne_nil _ _
  refine Text.trim_append hne ⟨?_, ?_⟩ p rest
  · rintro c ⟨⟩
    decide
  · unfold labels
    simp only [← List.append_assoc]
    exact Text.noBlankLast_append noBlankLast_descriptionMark (List.cons_ne_nil _ _) _

/-- Blanks around a text that announces a symbol do not matter: what trimming leaves
announces it too. -/
theorem Announces.trim {s : Symbol} (hs : s.description.IsTrimmed) {p t : Text}
    (h : Announces p t s) : Announces p.trimStart t.trim s := by
  obtain ⟨hp, w₁, w₂, w₃, w₄, w₅, h₁, h₂, h₃, h₄, h₅, rfl⟩ := h
  have htrim := trim_labels s w₁ w₂ w₃ w₄ p (w₅ ++ s.description)
  simp only [labels, List.append_assoc] at htrim
  refine ⟨?_, ?_⟩
  · obtain ⟨w, -, hw⟩ := Text.exists_blank_trimStart p
    intro hoccurs
    refine hp ?_
    rw [hw]
    exact List.infix_append_of_infix_right hoccurs
  · simp only [List.append_assoc]
    rw [htrim]
    -- Blanks before an empty description are at the end of the text, and go.
    by_cases hdescription : s.description = []
    · refine ⟨w₁, w₂, w₃, w₄, [], h₁, h₂, h₃, h₄, nofun, ?_⟩
      have hend : Text.trimEnd (w₅ ++ []) = [] := by
        rw [List.append_nil, ← List.nil_append w₅, Text.trimEnd_append_of_blank h₅]
        rfl
      rw [hdescription, hend]
      rfl
    · refine ⟨w₁, w₂, w₃, w₄, w₅, h₁, h₂, h₃, h₄, h₅, ?_⟩
      rw [Text.trimEnd_of_noBlankLast (Text.noBlankLast_append hs.last hdescription _)]

/-- A run of digits ends before blanks and the name mark. -/
theorem not_isDigit_of_head_blanks {w : Text} (hw : w.AllBlank) (labels : Text) :
    ∀ c, (w ++ (nameMark ++ labels)).head? = some c → isDigit c = false := by
  cases w with
  | nil =>
    rintro c ⟨⟩
    decide
  | cons b w =>
    rintro c ⟨⟩
    exact not_isDigit_of_isBlank (hw b List.mem_cons_self)

/-- Behind blanks, a run of digits, blanks and a name mark, the labels decide. -/
theorem ofFields?_behind {id w₁ w₂ : Text} (hne : id ≠ []) (hdigits : ∀ c ∈ id, isDigit c = true)
    (h₁ : w₁.AllBlank) (h₂ : w₂.AllBlank) (labels : Text) :
    ofFields? (w₁ ++ (id ++ (w₂ ++ (nameMark ++ labels)))) = ofLabels? id labels := by
  have hfirst : Text.NoBlankFirst id := by
    intro c hc
    exact not_isBlank_of_isDigit (hdigits c (List.mem_of_mem_head? hc))
  have hmark : Text.NoBlankFirst (nameMark ++ labels) := by
    rintro c ⟨⟩
    decide
  -- The digits end where the blanks or the next mark begin.
  have hspan : (id ++ (w₂ ++ (nameMark ++ labels))).span isDigit
      = (id, w₂ ++ (nameMark ++ labels)) :=
    Text.span_append hdigits (not_isDigit_of_head_blanks h₂ labels)
  have hid : id.isEmpty = false := by
    rw [List.isEmpty_eq_false_iff]
    exact hne
  rw [ofFields?, Text.trimStart_append_of_blank h₁,
    Text.trimStart_of_noBlankFirst (Text.noBlankFirst_append hfirst hne _), hspan]
  dsimp only
  rw [hid, if_neg Bool.false_ne_true, Text.trimStart_append_of_blank h₂,
    Text.trimStart_of_noBlankFirst hmark, Text.isPrefixOf?_append]

section
variable {s : Symbol} (hs : s.IsCanonical)
include hs

/-- A canonical symbol is made again of its own labels, with any blanks around them. -/
theorem ofLabels?_spelled {w₃ w₄ w₅ : Text} (h₃ : w₃.AllBlank) (h₄ : w₄.AllBlank)
    (h₅ : w₅.AllBlank) :
    ofLabels? s.id (w₃ ++ s.name ++ w₄ ++ (descriptionMark ++ (w₅ ++ s.description))) = some s := by
  have hblank : ∀ {w : Text}, w.AllBlank → ∀ c ∈ w, c ∉ descriptionMark := by
    intro w hw c hc
    exact not_mem_descriptionMark_of_isBlank (hw c hc)
  have hunmarked : ¬ descriptionMark <:+: w₃ ++ s.name ++ w₄ :=
    Text.not_infix_padded (List.cons_ne_nil _ _) (hblank h₃) hs.name_unmarked (hblank h₄)
  have hline : Text.firstLine s.description = s.description := by
    refine List.takeWhile_eq_self_iff.2 ?_
    intro c hc
    exact decide_eq_true fun hfeed => hs.description_oneLine (hfeed ▸ hc)
  -- The first description mark is the one that was written: none is in the name, and none
  -- begins in the blanks around it.
  rw [ofLabels?, Text.breakOn?_first isMark_descriptionMark hunmarked]
  dsimp only
  rw [Text.trim_padded h₃ hs.name_trimmed h₄, if_neg hs.name_oneLine,
    Text.trimStart_append_of_blank h₅, Text.trimStart_of_noBlankFirst hs.description_trimmed.first,
    hline, Text.trim_of_isTrimmed hs.description_trimmed]

/-- A canonical symbol is found in a text that announces it. -/
theorem ofText?_of_announces {p t : Text} (h : Announces p t s) : ofText? t = some s := by
  obtain ⟨hp, w₁, w₂, w₃, w₄, w₅, h₁, h₂, h₃, h₄, h₅, rfl⟩ := h
  have hlabels := ofLabels?_spelled hs h₃ h₄ h₅
  exact ofText?_of_ofFields? hp ((ofFields?_behind hs.id_ne_nil hs.id_digits h₁ h₂ _).trans hlabels)

end

end Symbol

end SymbolLog
