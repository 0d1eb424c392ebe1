/-
The search for a symbol is the leftmost match of a pattern.

A symbol is found by a direct scan that never goes back. What it is meant to find is usually
written as a pattern with five repetitions and a lazy group, and the repetitions overlap: a
blank may be taken by the one or by the other, a line feed is a blank and ends a line, and a
name may go on to a second description mark if the first does not do. So it has to be shown that
none of the choices matters.

They are taken from the right. The last group always matches. The blanks before a mark and
before the digits, and the digits themselves, are followed by what cannot begin with one more
of them, so each of these repetitions takes all it can. The name is lazy and ends where blanks
and a description mark follow. No such place is before the first description mark, and one that
is behind it is not reached: the name would have to take a line feed that stands between two
characters that are no blanks, and it must not. That leaves the blanks before the name. Leaving
some of them to the name only makes it longer, and what fails without them fails with them.

The same search can be described without any pattern. An occurrence of the id mark is followed by
all fields, or it is not; nothing is found where no occurrence is, and otherwise the leftmost one
that is counts. What is found at one place is taken apart and put together again as `Fields`; that
it is the leftmost place is what a search means (`ofText?_eq_findFrom?`).
-/
import SymbolLog.Proofs.Symbol.Padding
import SymbolLog.Proofs.Text.Patterns

set_option autoImplicit false

namespace SymbolLog

/-! ## Blanks before a mark -/

namespace Text

/-- Blanks in front contain no character of the mark, so the search passes them. -/
theorem breakOn?_descriptionMark_blank_append {w : Text} (hw : w.AllBlank) (t : Text) :
    breakOn? descriptionMark (w ++ t)
      = (breakOn? descriptionMark t).map fun (before, after) => (w ++ before, after) := by
  apply breakOn?_append_of_not_mem (List.cons_ne_nil _ _)
  intro c hc
  exact not_mem_descriptionMark_of_isBlank (hw c hc)

/-- The first description mark stands behind blanks and nothing else exactly if it is at the
start once they are trimmed. -/
theorem isPrefixOf?_trimStart_iff {t after : Text} :
    descriptionMark.isPrefixOf? (trimStart t) = some after ↔
      ∃ w : Text, w.AllBlank ∧ breakOn? descriptionMark t = some (w, after) := by
  constructor
  · intro hstart
    obtain ⟨w, hw, ht⟩ := exists_blank_trimStart t
    refine ⟨w, hw, ?_⟩
    rw [ht, eq_append_of_isPrefixOf? hstart, breakOn?_descriptionMark_blank_append hw,
      breakOn?_of_prefix]
    simp
  · rintro ⟨w, hw, hbreak⟩
    have hfirst : NoBlankFirst (descriptionMark ++ after) := by
      -- The mark does not begin with a blank.
      rintro c ⟨⟩
      decide
    rw [eq_append_of_breakOn? hbreak, List.append_assoc, trimStart_append_of_blank hw,
      trimStart_of_noBlankFirst hfirst, isPrefixOf?_append]

/-- Trimming the end of a text reaches behind the first character, unless there is nothing but
blanks. -/
theorem trimEnd_cons {c : Char} {t : Text} (h : ¬ AllBlank (c :: t)) :
    trimEnd (c :: t) = c :: trimEnd t := by
  obtain ⟨w, hw, ht⟩ := exists_blank_trimEnd t
  have hsplit : c :: t = (c :: trimEnd t) ++ w := by
    rw [List.cons_append, ← ht]
  have hlast : NoBlankLast (c :: trimEnd t) := by
    intro d hd
    by_cases hnil : trimEnd t = []
    · rw [hnil, List.getLast?_singleton] at hd
      obtain rfl : c = d := Option.some.inj hd
      -- Everything behind this character is blank.
      by_contra hblank
      apply h
      intro x hx
      rw [hsplit, hnil] at hx
      simp only [List.cons_append, List.nil_append, List.mem_cons] at hx
      rcases hx with rfl | hx
      · simpa using hblank
      · exact hw x hx
    · apply noBlankLast_trimEnd t
      rw [List.getLast?_cons, List.getLast?_eq_some_getLast hnil] at hd
      rw [List.getLast?_eq_some_getLast hnil]
      exact hd
  rw [hsplit, trimEnd_append_of_blank hw, trimEnd_of_noBlankLast hlast]

theorem mem_trimEnd_append {c : Char} {t : Text} (h : c ∈ trimEnd t) (w : Text) :
    c ∈ trimEnd (w ++ t) := by
  obtain ⟨w', hw', ht⟩ := exists_blank_trimEnd t
  have hlast := noBlankLast_append (noBlankLast_trimEnd t) (List.ne_nil_of_mem h) w
  rw [ht, ← List.append_assoc, trimEnd_append_of_blank hw', trimEnd_of_noBlankLast hlast]
  exact List.mem_append_right w h

end Text

/-! ## The pattern -/

namespace Symbol

open Pattern

/-- The characters that do not end a line. -/
def inLine (c : Char) : Bool := c ≠ '\n'

def blanks : Pattern := .many isBlank

/-- In the usual notation, `\s*(.*)`. -/
def descriptionPattern : Pattern := blanks.followedBy (.group (.many inLine))

/-- In the usual notation, `\s*Desc:` and the description. -/
def endPattern : Pattern := blanks.followedBy ((mark descriptionMark).followedBy descriptionPattern)

/-- In the usual notation, `\s*(.*?)` and what ends the name. -/
def labelsPattern : Pattern := blanks.followedBy ((group (.few inLine)).followedBy endPattern)

/-- In the usual notation, `\s*([0-9]+)\s*Name:` and the labels. -/
def fieldsPattern : Pattern :=
  blanks.followedBy ((group ((one isDigit).followedBy (.many isDigit))).followedBy
    (blanks.followedBy ((mark nameMark).followedBy labelsPattern)))

/-- In the usual notation, `Symbol ID:\s*([0-9]+)\s*Name:\s*(.*?)\s*Desc:\s*(.*)`. -/
def pattern : Pattern := (mark idMark).followedBy fieldsPattern

/-- The symbol whose fields are three groups, without the blanks around them. -/
def ofGroups (groups : List Text) : Symbol where
  id := (groups[0]?.map Text.trim).getD []
  name := (groups[1]?.map Text.trim).getD []
  description := (groups[2]?.map Text.trim).getD []

/-! ## What the parts of the pattern find -/

theorem not_prefix_of_isBlank {m : Char} {mark : Text} (hm : isBlank m = false) {c : Char}
    (hc : isBlank c = true) (rest : Text) : ¬ m :: mark <+: c :: rest := by
  rintro ⟨extra, h⟩
  obtain ⟨rfl, -⟩ := List.cons.inj h
  rw [hm] at hc
  cases hc

theorem here?_descriptionPattern (t : Text) :
    descriptionPattern.here? t = some [Text.firstLine (Text.trimStart t)] := by
  rw [descriptionPattern, blanks, here?_many, findSome?_longest]
  · exact here?_group_many
  · intro s hs hnone
    rw [here?_group_many] at hnone
    cases hnone

/-- The name may end where the next thing but blanks is the mark of the description. -/
theorem here?_endPattern (t : Text) :
    endPattern.here? t = (descriptionMark.isPrefixOf? (Text.trimStart t)).map
      fun after => [Text.firstLine (Text.trimStart after)] := by
  rw [endPattern, blanks, here?_many_of_not]
  · rw [here?_mark, funext here?_descriptionPattern]
    show (descriptionMark.isPrefixOf? (Text.trimStart t)).bind _ = _
    cases descriptionMark.isPrefixOf? (Text.trimStart t) with
    | none => rfl
    | some after => rfl
  · intro c rest hc
    have hstart : ¬ descriptionMark <+: c :: rest := not_prefix_of_isBlank (by decide) hc rest
    rw [here?_mark, Text.isPrefixOf?_eq_none_iff.2 hstart]
    rfl

/-- The name and the line of the description, as a name that is ended by `trim` leaves them. -/
def labelsOf (trim : Text → Text) (front : Text) (t : Text) : Option (List Text) :=
  (Text.breakOn? descriptionMark t).bind fun parts =>
    if '\n' ∈ trim parts.1 then none
    else some [front ++ trim parts.1, Text.firstLine (Text.trimStart parts.2)]

/-- The name ends here if only blanks are before the mark. -/
theorem labelsOf_of_start {front t after : Text}
    (h : descriptionMark.isPrefixOf? (Text.trimStart t) = some after) :
    labelsOf Text.trimEnd front t = some [front, Text.firstLine (Text.trimStart after)] := by
  obtain ⟨w, hw, hbreak⟩ := Text.isPrefixOf?_trimStart_iff.1 h
  have hname : Text.trimEnd w = [] := Text.trimEnd_append_of_blank (t := []) hw
  rw [labelsOf, hbreak]
  simp [hname]

/-- Otherwise it takes one more character, which must not be a line feed. -/
theorem labelsOf_cons {c : Char} {front t : Text}
    (h : descriptionMark.isPrefixOf? (Text.trimStart (c :: t)) = none) :
    labelsOf Text.trimEnd front (c :: t)
      = if inLine c = true then labelsOf Text.trimEnd (front ++ [c]) t else none := by
  have hnot : ∀ w after, w.AllBlank →
      Text.breakOn? descriptionMark (c :: t) ≠ some (w, after) := by
    intro w after hw hbreak
    rw [Text.isPrefixOf?_trimStart_iff.2 ⟨w, hw, hbreak⟩] at h
    cases h
  -- If the mark stood here, only nothing would stand before it, and that is blank.
  have hmark : ¬ descriptionMark <+: c :: t := by
    rintro ⟨rest, hrest⟩
    apply hnot [] rest (by simp [Text.AllBlank])
    rw [← hrest, Text.breakOn?_of_prefix]
  rw [labelsOf, labelsOf, Text.breakOn?_cons_skip hmark]
  cases hbreak : Text.breakOn? descriptionMark t with
  | none => simp
  | some parts =>
    obtain ⟨before, after⟩ := parts
    have hblank : ¬ Text.AllBlank (c :: before) := by
      intro hall
      apply hnot (c :: before) after hall
      rw [Text.breakOn?_cons_skip hmark, hbreak]
      rfl
    -- A line feed that is not trimmed away is one in the name, and then there is no name.
    by_cases hc : c = '\n'
    · subst hc
      simp [Text.trimEnd_cons hblank, inLine]
    · simp [Text.trimEnd_cons hblank, inLine, hc, Ne.symm hc]

/-- **A lazy name ends at the first description mark**, without the blanks before it, unless a
line feed is in the way. -/
theorem findSome?_endPattern (front t : Text) :
    (splits inLine t).findSome? (fun s => (endPattern.here? s.2).map ((front ++ s.1) :: ·))
      = labelsOf Text.trimEnd front t := by
  induction t generalizing front with
  | nil => rfl
  | cons c t ih =>
    rw [splits, List.findSome?_cons]
    dsimp only
    rw [here?_endPattern]
    -- Either the name may end here, or one more character is taken if it is on the line.
    cases hstart : descriptionMark.isPrefixOf? (Text.trimStart (c :: t)) with
    | some after =>
      rw [labelsOf_of_start hstart]
      simp
    | none =>
      have hrest := ih (front ++ [c])
      rw [labelsOf_cons hstart, ← hrest]
      by_cases hc : inLine c = true
      · simp [hc, List.findSome?_map, Function.comp_def]
      · simp [hc]

/-- Behind blanks that the pattern has taken, nothing is left to trim at the start of the name. -/
theorem labelsOf_trimStart (t : Text) :
    labelsOf Text.trimEnd [] (Text.trimStart t) = labelsOf Text.trim [] t := by
  obtain ⟨w, hw, ht⟩ := Text.exists_blank_trimStart t
  conv_rhs => rw [ht]
  simp only [labelsOf, Text.breakOn?_descriptionMark_blank_append hw]
  cases hbreak : Text.breakOn? descriptionMark (Text.trimStart t) with
  | none => rfl
  | some parts =>
    obtain ⟨before, after⟩ := parts
    -- The text in front of the mark begins as the trimmed text does.
    have hfirst : before.NoBlankFirst := by
      intro c hc
      apply Text.noBlankFirst_trimStart t c
      rw [Text.eq_append_of_breakOn? hbreak, List.append_assoc, List.head?_append, hc]
      rfl
    simp only [Option.map_some, Option.bind_some, Text.trim, Text.trimStart_append_of_blank hw,
      Text.trimStart_of_noBlankFirst hfirst]

/-- Blanks that are left to the name do not mend it. -/
theorem labelsOf_blank_append {w t : Text} (hw : w.AllBlank)
    (h : labelsOf Text.trimEnd [] t = none) : labelsOf Text.trimEnd [] (w ++ t) = none := by
  simp only [labelsOf, Text.breakOn?_descriptionMark_blank_append hw] at h ⊢
  cases hbreak : Text.breakOn? descriptionMark t with
  | none => rfl
  | some parts =>
    rw [hbreak] at h
    simp only [Option.map_some, Option.bind_some, ite_eq_left_iff] at h ⊢
    intro hfeed
    have hnot : '\n' ∉ parts.1.trimEnd := fun hmem => hfeed (Text.mem_trimEnd_append hmem w)
    cases h hnot

/-- The labels in one piece: the lazy name stops at the first place at which the mark follows, and
that is the name before the first mark, trimmed. -/
theorem here?_labelsPattern (t : Text) : labelsPattern.here? t = labelsOf Text.trim [] t := by
  have hname : ((group (.few inLine)).followedBy endPattern).here?
      = labelsOf Text.trimEnd [] := by
    funext u
    rw [here?_group_few]
    exact findSome?_endPattern [] u
  rw [labelsPattern, blanks, here?_many, hname, findSome?_longest]
  · exact labelsOf_trimStart t
  · -- A shorter run of blanks leaves blanks in front, which do not help if the longest run has
    -- failed.
    rintro ⟨run, rest⟩ hs hnone
    obtain ⟨hsplit, hrun⟩ := mem_splits_iff.1 hs
    obtain ⟨w, hw, hrest⟩ := Text.exists_blank_trimStart rest
    have hsame : Text.trimStart rest = Text.trimStart t := by
      rw [← hsplit, Text.trimStart_append_of_blank hrun]
    show labelsOf Text.trimEnd [] rest = none
    rw [hrest, hsame]
    exact labelsOf_blank_append hw hnone

/-- What the labels give is what the direct scan makes of them. -/
theorem map_labelsOf {id : Text} (hid : id.trim = id) (t : Text) :
    (labelsOf Text.trim [] t).map (fun groups => ofGroups (id :: groups)) = ofLabels? id t := by
  rw [labelsOf, ofLabels?]
  cases Text.breakOn? descriptionMark t with
  | none => rfl
  | some parts =>
    obtain ⟨before, after⟩ := parts
    dsimp only [Option.bind_some]
    split
    · rfl
    · simp [ofGroups, hid, Text.trim_of_isTrimmed (Text.isTrimmed_trim before)]

theorem trim_of_digits {id : Text} (h : ∀ c ∈ id, isDigit c = true) : id.trim = id := by
  apply Text.trim_of_isTrimmed
  constructor
  · intro c hc
    exact not_isBlank_of_isDigit (h c (List.mem_of_mem_head? hc))
  · intro c hc
    exact not_isBlank_of_isDigit (h c (List.mem_of_getLast? hc))

/-- The fields in one piece. No repetition in them can give anything back, since what follows
begins with a character of another kind. -/
theorem here?_fieldsPattern (t : Text) :
    fieldsPattern.here? t
      = if (Text.trimStart t).takeWhile isDigit = [] then none
        else ((nameMark.isPrefixOf? (Text.trimStart ((Text.trimStart t).dropWhile isDigit))).bind
          (labelsOf Text.trim [])).map ((Text.trimStart t).takeWhile isDigit :: ·) := by
  -- The next mark begins with neither a blank nor a digit.
  have hmark (c : Char) (rest : Text) (hc : isBlank c = true ∨ isDigit c = true) :
      ((mark nameMark).followedBy labelsPattern).here? (c :: rest) = none := by
    have hstart : ¬ nameMark <+: c :: rest := by
      rintro ⟨extra, h⟩
      obtain ⟨rfl, -⟩ := List.cons.inj h
      revert hc
      decide
    rw [here?_mark, Text.isPrefixOf?_eq_none_iff.2 hstart]
    rfl
  have hname (u : Text) : (blanks.followedBy ((mark nameMark).followedBy labelsPattern)).here? u
      = ((mark nameMark).followedBy labelsPattern).here? (Text.trimStart u) := by
    apply here?_many_of_not
    intro c rest hc
    exact hmark c rest (.inl hc)
  rw [fieldsPattern, blanks, here?_many_of_not]
  · rw [here?_group_one_many]
    · show (if (Text.trimStart t).takeWhile isDigit = [] then none
        else Option.map _ ((blanks.followedBy _).here? ((Text.trimStart t).dropWhile isDigit))) = _
      rw [hname, here?_mark, funext here?_labelsPattern]
      rfl
    · intro c rest hc
      have hfirst : Text.NoBlankFirst (c :: rest) := by
        rintro d ⟨⟩
        exact not_isBlank_of_isDigit hc
      show (blanks.followedBy _).here? (c :: rest) = none
      rw [hname, Text.trimStart_of_noBlankFirst hfirst]
      exact hmark c rest (.inr hc)
  · intro c rest hc
    have hdigit : isDigit c = false := not_isDigit_of_isBlank hc
    rw [here?_followedBy]
    simp [attempts, hdigit]

/-- At one place, pattern and direct scan find the same. -/
theorem map_fieldsPattern (t : Text) : (fieldsPattern.here? t).map ofGroups = ofFields? t := by
  have hdigits : ∀ c ∈ (Text.trimStart t).takeWhile isDigit, isDigit c = true :=
    List.all_eq_true.1 List.all_takeWhile
  rw [here?_fieldsPattern, ofFields?, List.span_eq_takeWhile_dropWhile]
  generalize (Text.trimStart t).takeWhile isDigit = id at hdigits
  dsimp only
  by_cases hnil : id = []
  · rw [if_pos hnil, hnil]
    rfl
  · have hempty : id.isEmpty = false := by simpa using hnil
    rw [if_neg hnil, hempty, if_neg Bool.false_ne_true]
    cases nameMark.isPrefixOf? (Text.trimStart ((Text.trimStart t).dropWhile isDigit)) with
    | none => rfl
    | some labels =>
      rw [Option.bind_some, Option.map_map]
      exact map_labelsOf (trim_of_digits hdigits) labels

/-! ## The leftmost place -/

/-- The search is for the first place at which an id mark is followed by all fields. -/
theorem ofText?_eq_findFrom? (t : Text) :
    ofText? t = t.findFrom? fun t => (idMark.isPrefixOf? t).bind ofFields? := by
  induction t with
  | nil => rfl
  | cons c t ih =>
    rw [ofText?, Text.findFrom?, ← ih]
    cases (idMark.isPrefixOf? (c :: t)).bind ofFields? with
    | none => rfl
    | some s => rfl

theorem map_search?_pattern (t : Text) : (pattern.search? t).map ofGroups = ofText? t := by
  rw [search?, Text.map_findFrom?, ofText?_eq_findFrom?]
  congr 1
  funext u
  rw [pattern, here?_mark]
  cases idMark.isPrefixOf? u with
  | none => rfl
  | some rest => exact map_fieldsPattern rest

end Symbol

/-! ## Occurrences followed by all fields -/

/-- The text behind an id mark, taken apart into the fields of a symbol. -/
structure Fields (t : Text) where
  front : Text
  id : Text
  back : Text
  /-- What stands between the name mark and the description mark. -/
  label : Text
  after : Text
  spelled : t = front ++ (id ++ (back ++ (nameMark ++ (label ++ descriptionMark ++ after))))
  front_blank : front.AllBlank
  id_ne_nil : id ≠ []
  id_digits : ∀ c ∈ id, isDigit c = true
  /-- The digits are a whole run. -/
  id_whole : ∀ c, (back ++ nameMark).head? = some c → isDigit c = false
  back_blank : back.AllBlank
  /-- The description mark is the first behind the name mark. -/
  label_first : ∀ u v, label ++ descriptionMark ++ after = u ++ descriptionMark ++ v →
    label.length ≤ u.length
  label_oneLine : '\n' ∉ label.trim

/-- The symbol that some fields make. The description is on the line on which it starts. -/
def Fields.symbol {t : Text} (fields : Fields t) : Symbol where
  id := fields.id
  name := fields.label.trim
  description := (Text.firstLine (Text.trimStart fields.after)).trim

/-- An id mark that is followed by all fields of a symbol. -/
structure Occurrence (t : Text) where
  before : Text
  rest : Text
  spelled : t = before ++ idMark ++ rest
  fields : Fields rest

namespace Symbol

/-- What the labels of a symbol have to satisfy, read off the direct scan. -/
theorem ofLabels?_eq_some_iff {id t : Text} {s : Symbol} :
    ofLabels? id t = some s ↔
      ∃ label after, Text.breakOn? descriptionMark t = some (label, after) ∧ '\n' ∉ label.trim ∧
        s = ⟨id, label.trim, (Text.firstLine (Text.trimStart after)).trim⟩ := by
  rw [ofLabels?]
  cases Text.breakOn? descriptionMark t with
  | none => simp
  | some parts =>
    obtain ⟨label, after⟩ := parts
    simp only [Option.some.injEq, Prod.mk.injEq]
    constructor
    · intro h
      split at h
      · cases h
      next hline => exact ⟨label, after, ⟨rfl, rfl⟩, hline, (Option.some.inj h).symm⟩
    · rintro ⟨label', after', ⟨rfl, rfl⟩, hline, rfl⟩
      rw [if_neg hline]

/-- A scan that comes to its end has taken the text apart into fields. -/
theorem exists_fields_of_ofFields? {t : Text} {s : Symbol} (h : ofFields? t = some s) :
    ∃ fields : Fields t, fields.symbol = s := by
  rw [ofFields?, List.span_eq_takeWhile_dropWhile] at h
  obtain ⟨front, hfront, ht⟩ := Text.exists_blank_trimStart t
  have hdigits : ∀ c ∈ (Text.trimStart t).takeWhile isDigit, isDigit c = true :=
    List.all_eq_true.1 List.all_takeWhile
  have hrun : (Text.trimStart t).takeWhile isDigit ++ (Text.trimStart t).dropWhile isDigit
      = Text.trimStart t := List.takeWhile_append_dropWhile
  -- Only that the digits are all of them and what is behind them matters from here on.
  generalize (Text.trimStart t).takeWhile isDigit = id at h hdigits hrun
  generalize (Text.trimStart t).dropWhile isDigit = rest at h hrun
  dsimp only at h
  split at h
  · cases h
  next hne =>
    obtain ⟨back, hback, hrest⟩ := Text.exists_blank_trimStart rest
    split at h
    · cases h
    next labels hmark =>
      obtain ⟨label, after, hbreak, hline, rfl⟩ := ofLabels?_eq_some_iff.1 h
      obtain ⟨hlabels, hfirst⟩ := Text.breakOn?_eq_some_iff.1 hbreak
      refine
        ⟨{ front := front
           id := id
           back := back
           label := label
           after := after
           spelled := ?_
           front_blank := hfront
           id_ne_nil := ?_
           id_digits := hdigits
           id_whole := ?_
           back_blank := hback
           label_first := ?_
           label_oneLine := hline }, rfl⟩
      · rw [← hlabels, ← Text.eq_append_of_isPrefixOf? hmark, ← hrest, hrun, ← ht]
      · rintro rfl
        exact hne rfl
      · have hwhole := not_isDigit_of_head_blanks hback []
        rwa [List.append_nil] at hwhole
      · rw [← hlabels]
        exact hfirst

/-- The scan finds the fields of every text that can be taken apart into them. -/
theorem ofFields?_of_fields {t : Text} (fields : Fields t) : ofFields? t = some fields.symbol := by
  have hbreak : Text.breakOn? descriptionMark (fields.label ++ descriptionMark ++ fields.after)
      = some (fields.label, fields.after) :=
    Text.breakOn?_eq_some_iff.2 ⟨rfl, fields.label_first⟩
  conv_lhs => rw [fields.spelled]
  rw [ofFields?_behind fields.id_ne_nil fields.id_digits fields.front_blank fields.back_blank]
  exact ofLabels?_eq_some_iff.2 ⟨_, _, hbreak, fields.label_oneLine, rfl⟩

end Symbol

namespace Occurrence

variable {t : Text}

theorem split (o : Occurrence t) : t = o.before ++ (idMark ++ o.rest) := by
  rw [← List.append_assoc]
  exact o.spelled

/-- The fields are found at their mark. -/
theorem found (o : Occurrence t) :
    (idMark.isPrefixOf? (idMark ++ o.rest)).bind Symbol.ofFields? = some o.fields.symbol := by
  rw [Text.isPrefixOf?_append, Option.bind_some]
  exact Symbol.ofFields?_of_fields o.fields

/-- Whatever is found at a place is found by an occurrence there. -/
theorem exists_of_found {before u : Text} {s : Symbol} (ht : t = before ++ u)
    (h : (idMark.isPrefixOf? u).bind Symbol.ofFields? = some s) :
    ∃ o : Occurrence t, o.before = before ∧ idMark ++ o.rest = u ∧ o.fields.symbol = s := by
  obtain ⟨rest, hmark, hfields⟩ := Option.bind_eq_some_iff.1 h
  obtain ⟨fields, rfl⟩ := Symbol.exists_fields_of_ofFields? hfields
  have hu := Text.eq_append_of_isPrefixOf? hmark
  exact ⟨⟨before, rest, by rw [ht, hu, List.append_assoc], fields⟩, rfl, hu.symm, rfl⟩

end Occurrence

namespace Symbol

/-- **What is found is the leftmost occurrence.** Nothing is found in a text exactly if no id
mark in it is followed by all fields, and what is found otherwise are the fields of the leftmost
mark that is. The same comes of the leftmost match of the pattern when its groups are
trimmed. -/
theorem ofText?_leftmost (t : Text) :
    (ofText? t = none ↔ IsEmpty (Occurrence t)) ∧
      (∀ s, ofText? t = some s ↔
        ∃ o : Occurrence t, o.fields.symbol = s ∧
          ∀ other : Occurrence t, o.before.length ≤ other.before.length) ∧
      ofText? t = (pattern.search? t).map ofGroups := by
  -- Both laws are those of the first place, read over occurrences: an occurrence is a place at
  -- which the fields are found.
  refine ⟨?_, ?_, (map_search?_pattern t).symm⟩
  · rw [ofText?_eq_findFrom?, Text.findFrom?_eq_none_iff]
    constructor
    · intro h
      refine ⟨fun o => ?_⟩
      have hnone := h o.before (idMark ++ o.rest) o.split
      rw [o.found] at hnone
      cases hnone
    · intro h before u ht
      rw [Option.eq_none_iff_forall_ne_some]
      intro s hs
      obtain ⟨o, -⟩ := Occurrence.exists_of_found ht hs
      exact h.false o
  · intro s
    rw [ofText?_eq_findFrom?, Text.findFrom?_eq_some_iff]
    constructor
    · rintro ⟨before, u, ht, hs, hfirst⟩
      obtain ⟨o, rfl, -, hsymbol⟩ := Occurrence.exists_of_found ht hs
      refine ⟨o, hsymbol, ?_⟩
      intro other
      apply hfirst other.before (idMark ++ other.rest) other.split
      simp [other.found]
    · rintro ⟨o, rfl, hfirst⟩
      refine ⟨o.before, idMark ++ o.rest, o.split, o.found, ?_⟩
      intro before u ht hsome
      obtain ⟨s, hs⟩ := Option.isSome_iff_exists.1 hsome
      obtain ⟨other, rfl, -⟩ := Occurrence.exists_of_found ht hs
      exact hfirst other

/-- The name of the first mark would have to take a line feed. -/
example : pattern.search? "Symbol ID:1Name:a\nb Desc:Symbol ID: 02 Name: De Desc:\n d\ne".toList
    = some ["02".toList, "De".toList, "d".toList] := by
  cbv

end Symbol

end SymbolLog
