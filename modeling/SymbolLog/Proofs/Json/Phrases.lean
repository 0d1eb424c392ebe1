/-
The grammar without the depth.

The rules of the grammar share one bound on the depth, so a rule cannot be applied to parts that
came with bounds of their own. What a text spells at all is therefore put into equivalences, one
for each rule with brackets or commas: the parts are in the grammar if and only if the whole is.
From left to right the bound is handed down; from right to left the parts are brought to the
greater of their bounds.

Two consequences are for whoever reads JSON. A value nests no deeper than its text is long, so the
length of a text is a bound that excludes nothing (`readAhead_complete`). And as the reader returns
one value at most, a text spells one value at most (`eq_of_spelledAlone`).
-/
import SymbolLog.Proofs.Json.Limits
import SymbolLog.Proofs.Json.Reading

set_option autoImplicit false

namespace SymbolLog.Json

variable {t rest : Text}

/-- A text spells a phrase, however deep the values in it nest. -/
def Phrase.InText (phrase : Phrase) (t : Text) : Prop := ∃ depth, Spelled depth phrase t

theorem Spelled.mono {depth limit : Nat} {phrase : Phrase} (h : Spelled depth phrase t)
    (hlimit : depth ≤ limit) : Spelled limit phrase t :=
  spelled_of_nesting_le h (Nat.le_trans (nesting_le_of_spelled h) hlimit)

/-- Two phrases are spelled within a common depth. -/
theorem Phrase.InText.common {phrase phrase' : Phrase} {t' : Text} (h : phrase.InText t)
    (h' : phrase'.InText t') : ∃ depth, Spelled depth phrase t ∧ Spelled depth phrase' t' := by
  obtain ⟨depth, h⟩ := h
  obtain ⟨depth', h'⟩ := h'
  exact ⟨max depth depth', h.mono (Nat.le_max_left _ _), h'.mono (Nat.le_max_right _ _)⟩

/-! ## One equivalence for each rule -/

/-- An array is two brackets with space between them, or with elements. -/
theorem inText_array_iff {values : List Value} :
    (Phrase.value (.array values)).InText t ↔
      values = [] ∧ (∃ w, AllSpace w ∧ t = '[' :: (w ++ [']'])) ∨
        ∃ w used, AllSpace w ∧ (Phrase.elements values).InText used ∧
          t = '[' :: (w ++ (used ++ [']'])) := by
  constructor
  · rintro ⟨depth, h⟩
    cases h with
    | emptyArray hw => exact .inl ⟨rfl, _, hw, rfl⟩
    | array hw ht => exact .inr ⟨_, _, hw, ⟨_, ht⟩, rfl⟩
  · rintro (⟨rfl, w, hw, rfl⟩ | ⟨w, used, hw, ⟨depth, h⟩, rfl⟩)
    · exact ⟨1, .emptyArray hw⟩
    · exact ⟨depth + 1, .array hw h⟩

theorem inText_object_iff {members : List Member} :
    (Phrase.value (.object members)).InText t ↔
      members = [] ∧ (∃ w, AllSpace w ∧ t = '\x7b' :: (w ++ ['\x7d'])) ∨
        ∃ w used, AllSpace w ∧ (Phrase.members members).InText used ∧
          t = '\x7b' :: (w ++ (used ++ ['\x7d'])) := by
  constructor
  · rintro ⟨depth, h⟩
    cases h with
    | emptyObject hw => exact .inl ⟨rfl, _, hw, rfl⟩
    | object hw ht => exact .inr ⟨_, _, hw, ⟨_, ht⟩, rfl⟩
  · rintro (⟨rfl, w, hw, rfl⟩ | ⟨w, used, hw, ⟨depth, h⟩, rfl⟩)
    · exact ⟨1, .emptyObject hw⟩
    · exact ⟨depth + 1, .object hw h⟩

/-- How many values or members a phrase lists. -/
def Phrase.count : Phrase → Nat
  | .value _ => 0
  | .elements vs => vs.length
  | .members ms => ms.length

/-- The rest of a list, after its first item and blanks: nothing, or a comma and the other items. -/
def Phrase.Continues (others : Phrase) (t : Text) : Prop :=
  others.count = 0 ∧ t = [] ∨ ∃ w used, AllSpace w ∧ others.InText used ∧ t = ',' :: (w ++ used)

/-- An element stands at the end, or a comma and more elements follow it. -/
theorem inText_elements_cons_iff {v : Value} {values : List Value} :
    (Phrase.elements (v :: values)).InText t ↔
      ∃ used w tail, InGrammar v used ∧ AllSpace w ∧ (Phrase.elements values).Continues tail ∧
        t = used ++ (w ++ tail) := by
  constructor
  · rintro ⟨depth, h⟩
    cases h with
    | @lastElement _ _ used w ht hw =>
      exact ⟨used, w, [], ⟨_, ht⟩, hw, .inl ⟨rfl, rfl⟩, by rw [List.append_nil]⟩
    | element ht hw hw' hothers =>
      exact ⟨_, _, _, ⟨_, ht⟩, hw, .inr ⟨_, _, hw', ⟨_, hothers⟩, rfl⟩, rfl⟩
  · rintro ⟨used, w, tail, hvalue, hw, ⟨hnone, rfl⟩ | ⟨w', others, hw', hothers, rfl⟩, rfl⟩
    · obtain ⟨depth, hvalue⟩ := hvalue
      obtain rfl := List.length_eq_zero_iff.1 hnone
      rw [List.append_nil]
      exact ⟨depth, .lastElement hvalue hw⟩
    · -- The two are spelled within depths of their own, and within the greater one together.
      obtain ⟨depth, hvalue, hothers⟩ := Phrase.InText.common hvalue hothers
      exact ⟨depth, .element hvalue hw hw' hothers⟩

/-- A text spells a member: its key between quotes, a colon and its value. -/
def MemberSpelled (member : Member) (t : Text) : Prop :=
  ∃ k w w' used, Content member.1 k ∧ AllSpace w ∧ AllSpace w' ∧ InGrammar member.2 used ∧
    t = '"' :: (k ++ '"' :: (w ++ ':' :: (w' ++ used)))

theorem inText_members_cons_iff {member : Member} {members : List Member} :
    (Phrase.members (member :: members)).InText t ↔
      ∃ used w tail, MemberSpelled member used ∧ AllSpace w ∧
        (Phrase.members members).Continues tail ∧ t = used ++ (w ++ tail) := by
  constructor
  · rintro ⟨depth, h⟩
    cases h with
    | @lastMember _ key v k w₁ w₂ used w hkey hw₁ hw₂ ht hw =>
      refine ⟨_, w, [], ⟨k, w₁, w₂, used, hkey, hw₁, hw₂, ⟨_, ht⟩, rfl⟩, hw, .inl ⟨rfl, rfl⟩, ?_⟩
      simp only [List.append_assoc, List.cons_append, List.append_nil]
    | @member _ key v _ k w₁ w₂ used w w' others hkey hw₁ hw₂ ht hw hw' hothers =>
      refine ⟨_, w, _, ⟨k, w₁, w₂, used, hkey, hw₁, hw₂, ⟨_, ht⟩, rfl⟩, hw,
        .inr ⟨w', others, hw', ⟨_, hothers⟩, rfl⟩, ?_⟩
      simp only [List.append_assoc, List.cons_append]
  · rintro ⟨_, w, tail, ⟨k, w₁, w₂, used, hkey, hw₁, hw₂, hvalue, rfl⟩, hw,
      ⟨hnone, rfl⟩ | ⟨w', others, hw', hothers, rfl⟩, rfl⟩
    · obtain ⟨depth, hvalue⟩ := hvalue
      obtain rfl := List.length_eq_zero_iff.1 hnone
      simp only [List.append_assoc, List.cons_append, List.append_nil]
      exact ⟨depth, .lastMember hkey hw₁ hw₂ hvalue hw⟩
    · obtain ⟨depth, hvalue, hothers⟩ := Phrase.InText.common hvalue hothers
      simp only [List.append_assoc, List.cons_append]
      exact ⟨depth, .member hkey hw₁ hw₂ hvalue hw hw' hothers⟩

/-! ## Strings and blanks at the start of a text -/

/-- A string is its content between quotes. -/
theorem inGrammar_string_iff {pieces : List Piece} :
    InGrammar (.string pieces) t ↔ ∃ used, Content pieces used ∧ t = '"' :: (used ++ ['"']) := by
  constructor
  · rintro ⟨depth, h⟩
    cases h with
    | string ht => exact ⟨_, ht, rfl⟩
  · rintro ⟨used, hused, rfl⟩
    exact ⟨0, .string hused⟩

/-- A text that is read is what a string of the grammar decodes to. -/
theorem readText_sound {text : Text} (h : readText t = .ok (text, rest)) :
    ∃ pieces used, Content pieces used ∧ Decodes pieces text ∧ t = used ++ '"' :: rest := by
  rw [readText] at h
  split at h
  next pieces after hscan =>
    split at h
    next text hjoin =>
      cases h
      obtain ⟨used, hused, ht⟩ := scan_sound hscan
      exact ⟨pieces, used, hused, decodes_of_join hjoin, ht⟩
    · cases h
  next =>
    split at h
    · cases h
    · cases h

/-- A string of the grammar is read if it decodes to a text. -/
theorem readText_complete {pieces : List Piece} {text used : Text} (hused : Content pieces used)
    (htext : Decodes pieces text) (rest : Text) :
    readText (used ++ '"' :: rest) = .ok (text, rest) := by
  rw [readText, scan_complete hused]
  dsimp only
  rw [htext.join_eq]

theorem eq_append_of_skipSpace {after : Text} (h : skipSpace t = after) :
    ∃ w, AllSpace w ∧ t = w ++ after := by
  rw [← h]
  exact exists_skipSpace t

/-! ## Sizes -/

/-- What a phrase lists takes a character each, and so does every bracket that is opened. -/
theorem sizes_le_length {depth : Nat} {phrase : Phrase} (h : Spelled depth phrase t) :
    phrase.nesting ≤ t.length ∧ phrase.count ≤ t.length := by
  induction h with
  | null => exact ⟨Nat.zero_le _, Nat.zero_le _⟩
  | true => exact ⟨Nat.zero_le _, Nat.zero_le _⟩
  | false => exact ⟨Nat.zero_le _, Nat.zero_le _⟩
  | number _ => exact ⟨Nat.zero_le _, Nat.zero_le _⟩
  | string _ => exact ⟨Nat.zero_le _, Nat.zero_le _⟩
  | emptyArray _ => exact ⟨Nat.succ_le_succ (Nat.zero_le _), Nat.zero_le _⟩
  | emptyObject _ => exact ⟨Nat.succ_le_succ (Nat.zero_le _), Nat.zero_le _⟩
  -- The brackets are two characters, and a level is one.
  | array _ _ ih =>
    refine ⟨Nat.succ_le_succ (Nat.le_trans ih.1 ?_), Nat.zero_le _⟩
    simp only [List.length_append]
    omega
  | object _ _ ih =>
    refine ⟨Nat.succ_le_succ (Nat.le_trans ih.1 ?_), Nat.zero_le _⟩
    simp only [List.length_append]
    omega
  -- A value has a character at least, so elements are no more than characters.
  | lastElement ht hw ih =>
    obtain ⟨c, others, rfl, -⟩ := first_of_value ht
    simp only [Phrase.nesting, Phrase.count, Value.nestingOfElements, List.length_append,
      List.length_cons, List.length_nil] at ih ⊢
    omega
  | element ht hw hw' hothers ih ihothers =>
    simp only [Phrase.nesting, Phrase.count, Value.nestingOfElements, List.length_append,
      List.length_cons] at ih ihothers ⊢
    omega
  | lastMember _ _ _ ht hw ih =>
    simp only [Phrase.nesting, Phrase.count, Value.nestingOfMembers, List.length_append,
      List.length_cons, List.length_nil] at ih ⊢
    omega
  | member _ _ _ ht hw hw' hothers ih ihothers =>
    simp only [Phrase.nesting, Phrase.count, Value.nestingOfMembers, List.length_append,
      List.length_cons] at ih ihothers ⊢
    omega

/-- **The length of a text bounds nothing in it**: a value is read off its front, however deep it
nests. -/
theorem readAhead_complete {v : Value} {used : Text} (h : InGrammar v used)
    (hrest : Number.Stops rest) :
    readAhead (used ++ rest).length (used ++ rest) = .ok (v, rest) := by
  obtain ⟨depth, h⟩ := h
  have hused : used.length ≤ (used ++ rest).length := by
    rw [List.length_append]
    exact Nat.le_add_right _ _
  have hspelled : Spelled (used ++ rest).length (.value v) used :=
    spelled_of_nesting_le h (Nat.le_trans (sizes_le_length h).1 hused)
  exact readValue_complete hspelled (by omega) hrest

/-! ## One value for each text -/

/-- **A text spells one value at most.** -/
theorem eq_of_spelledAlone {depth depth' : Nat} {v v' : Value} (h : SpelledAlone depth v t)
    (h' : SpelledAlone depth' v' t) : v = v' := by
  -- The reader, given the greater of the two depths, returns both of them.
  have hread {d : Nat} {u : Value} (hu : SpelledAlone d u t) (hd : d ≤ max depth depth') :
      read (max depth depth') t = .ok u := by
    obtain ⟨w, inner, w', hw, hw', hinner, ht⟩ := hu
    exact read_eq_ok_iff.2 ⟨w, inner, w', hw, hw', hinner.mono hd, ht⟩
  have hboth := (hread h (Nat.le_max_left _ _)).symm.trans (hread h' (Nat.le_max_right _ _))
  exact Except.ok.inj hboth

end SymbolLog.Json
