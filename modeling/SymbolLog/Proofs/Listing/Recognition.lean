/-
Which texts are listings, and of what.

The reader of listings is a second reader of JSON, for one shape: it fills the fields of a symbol
as the members come and steps over what it does not want. Here it is compared with the grammar. A
text is loaded if and only if it spells an array of elements that each describe a symbol, and the
symbols are these (`load_eq_ok_iff`).

Every function of the reader is followed in both directions, from what it returns to what it has
taken and back. For members and elements these are inductions, over the steps of the reader in the
one direction and over the list in the other. What carries the induction over members is that
fields and members together make up the symbol; a member that is read moves from the members to
the fields (`completes_cons`).
-/
import Mathlib
import SymbolLog.Proofs.Json.Phrases
import SymbolLog.Proofs.Listing.Members

set_option autoImplicit false

namespace SymbolLog.Listing

open Json (AllSpace Content Decodes Defect InGrammar Member Number Phrase Piece Value
  eq_append_of_skipSpace noSpaceFirst_cons readText skipSpace skipSpace_padded)

variable {t rest : Text}

/-! ## Strings -/

/-- A value of some kind stands at the start of a text, with `rest` behind it. -/
def StartsWith (kind : Value → Prop) (t rest : Text) : Prop :=
  ∃ v used, kind v ∧ InGrammar v used ∧ t = used ++ rest

theorem StartsWith.noSpaceFirst {kind : Value → Prop} (h : StartsWith kind t rest) :
    Json.NoSpaceFirst t := by
  obtain ⟨v, used, -, ⟨depth, hused⟩, rfl⟩ := h
  exact Json.noSpaceFirst_of_value hused rest

/-- A string is read if it stands at the start and spells a text, and it is read as the text. -/
theorem readString_eq_ok_iff {text : Text} :
    readString t = .ok (text, rest) ↔ StartsWith (IsText · text) t rest := by
  constructor
  · intro h
    cases t with
    | nil => cases h
    | cons c t =>
      rw [readString] at h
      split at h
      next hc =>
        obtain ⟨pieces, used, hused, htext, ht⟩ := Json.readText_sound h
        refine ⟨.string pieces, _, ⟨pieces, rfl, htext⟩,
          Json.inGrammar_string_iff.2 ⟨used, hused, rfl⟩, ?_⟩
        rw [hc, ht, List.cons_append, List.append_assoc, List.singleton_append]
      · cases h
  · rintro ⟨v, used, ⟨pieces, rfl, htext⟩, hused, rfl⟩
    obtain ⟨content, hcontent, rfl⟩ := Json.inGrammar_string_iff.1 hused
    rw [List.cons_append, List.append_assoc, List.singleton_append, readString, if_pos rfl]
    exact Json.readText_complete hcontent htext rest

/-! ## Symbols as arrays -/

/-- Reads blanks and a string; a closing bracket in the place of the string is a defect of its
own. -/
def readSpacedString (closed : Defect) (t : Text) : Except Defect (Text × Text) :=
  match skipSpace t with
  | [] => .error .truncated
  | c :: t => if c = ']' then .error closed else readString (c :: t)

theorem readSpacedString_eq_ok_iff {closed : Defect} {text : Text} :
    readSpacedString closed t = .ok (text, rest) ↔
      ∃ w after, AllSpace w ∧ StartsWith (IsText · text) after rest ∧ t = w ++ after := by
  constructor
  · intro h
    rw [readSpacedString] at h
    split at h
    · cases h
    next c after hskip =>
      obtain ⟨w, hw, rfl⟩ := eq_append_of_skipSpace hskip
      split at h
      · cases h
      · exact ⟨w, c :: after, hw, readString_eq_ok_iff.1 h, rfl⟩
  · rintro ⟨w, after, hw, htext, rfl⟩
    have hread := readString_eq_ok_iff.2 htext
    rw [readSpacedString, skipSpace_padded hw htext.noSpaceFirst]
    cases after with
    | nil => cases hread
    | cons c after =>
      have hc : c ≠ ']' := by
        rintro rfl
        cases hread
      dsimp only
      rw [if_neg hc]
      exact hread

/-- The second and the third text of an array stand behind a comma. -/
theorem readNext_eq_ok_iff {text : Text} :
    readNext t = .ok (text, rest) ↔
      ∃ w w' after, AllSpace w ∧ AllSpace w' ∧ StartsWith (IsText · text) after rest ∧
        t = w ++ ',' :: (w' ++ after) := by
  constructor
  · intro h
    rw [readNext] at h
    split at h
    · cases h
    next c t hskip =>
      obtain ⟨w, hw, rfl⟩ := eq_append_of_skipSpace hskip
      split at h
      · cases h
      split at h
      next hc =>
        have hread : readSpacedString .malformed t = .ok (text, rest) := h
        obtain ⟨w', after, hw', htext, rfl⟩ := readSpacedString_eq_ok_iff.1 hread
        exact ⟨w, w', after, hw, hw', htext, by rw [hc]⟩
      · cases h
  · rintro ⟨w, w', after, hw, hw', htext, rfl⟩
    have hread : readSpacedString .malformed (w' ++ after) = .ok (text, rest) :=
      readSpacedString_eq_ok_iff.2 ⟨w', after, hw', htext, rfl⟩
    rw [readNext, skipSpace_padded hw (noSpaceFirst_cons rfl)]
    exact hread

theorem readClose_eq_ok_iff :
    readClose t = .ok rest ↔ ∃ w, AllSpace w ∧ t = w ++ ']' :: rest := by
  constructor
  · intro h
    rw [readClose] at h
    split at h
    · cases h
    next c after hskip =>
      obtain ⟨w, hw, rfl⟩ := eq_append_of_skipSpace hskip
      split at h
      next hc =>
        cases h
        exact ⟨w, hw, by rw [hc]⟩
      · cases h
  · rintro ⟨w, hw, rfl⟩
    rw [readClose, skipSpace_padded hw (noSpaceFirst_cons rfl)]
    rfl

theorem inText_triple_iff {a b c : Value} :
    (Phrase.elements [a, b, c]).InText t ↔
      ∃ used₁ w₁ w₁' used₂ w₂ w₂' used₃ w₃, InGrammar a used₁ ∧ AllSpace w₁ ∧ AllSpace w₁' ∧
        InGrammar b used₂ ∧ AllSpace w₂ ∧ AllSpace w₂' ∧ InGrammar c used₃ ∧ AllSpace w₃ ∧
        t = used₁ ++ (w₁ ++ ',' :: (w₁' ++ (used₂ ++ (w₂ ++ ',' :: (w₂' ++ (used₃ ++ w₃)))))) := by
  constructor
  · intro h
    obtain ⟨used₁, w₁, _, ha, hw₁, ⟨hnone, -⟩ | ⟨w₁', _, hw₁', hpair, rfl⟩, rfl⟩ :=
      Json.inText_elements_cons_iff.1 h
    · cases hnone
    obtain ⟨used₂, w₂, _, hb, hw₂, ⟨hnone, -⟩ | ⟨w₂', _, hw₂', hlast, rfl⟩, rfl⟩ :=
      Json.inText_elements_cons_iff.1 hpair
    · cases hnone
    obtain ⟨used₃, w₃, _, hc, hw₃, ⟨-, rfl⟩ | ⟨_, _, _, ⟨depth, hnone⟩, -⟩, rfl⟩ :=
      Json.inText_elements_cons_iff.1 hlast
    · exact ⟨used₁, w₁, w₁', used₂, w₂, w₂', used₃, w₃, ha, hw₁, hw₁', hb, hw₂, hw₂', hc, hw₃,
        by rw [List.append_nil]⟩
    · cases hnone
  · rintro ⟨used₁, w₁, w₁', used₂, w₂, w₂', used₃, w₃, ha, hw₁, hw₁', hb, hw₂, hw₂', hc, hw₃, rfl⟩
    have hlast : (Phrase.elements [c]).InText (used₃ ++ w₃) :=
      Json.inText_elements_cons_iff.2
        ⟨used₃, w₃, [], hc, hw₃, .inl ⟨rfl, rfl⟩, by rw [List.append_nil]⟩
    have hpair := Json.inText_elements_cons_iff.2
      ⟨used₂, w₂, _, hb, hw₂, .inr ⟨w₂', _, hw₂', hlast, rfl⟩, rfl⟩
    exact Json.inText_elements_cons_iff.2
      ⟨used₁, w₁, _, ha, hw₁, .inr ⟨w₁', _, hw₁', hpair, rfl⟩, rfl⟩

theorem readTriple_eq_ok_iff {s : Symbol} :
    readTriple t = .ok (s, rest) ↔
      ∃ values w used, Describes (.array values) s ∧ AllSpace w ∧
        (Phrase.elements values).InText used ∧ t = w ++ (used ++ ']' :: rest) := by
  constructor
  · intro h
    obtain ⟨⟨id, t₁⟩, hfirst, h⟩ := bind_eq_ok_iff.1 h
    obtain ⟨⟨name, t₂⟩, hnext, h⟩ := bind_eq_ok_iff.1 h
    obtain ⟨⟨description, t₃⟩, hlast, h⟩ := bind_eq_ok_iff.1 h
    obtain ⟨t₄, hclose, h⟩ := bind_eq_ok_iff.1 h
    cases h
    have hread : readSpacedString .mismatched t = .ok (id, t₁) := hfirst
    obtain ⟨w, _, hw, ⟨a, used₁, ha, hused₁, rfl⟩, rfl⟩ := readSpacedString_eq_ok_iff.1 hread
    obtain ⟨w₁, w₁', _, hw₁, hw₁', ⟨b, used₂, hb, hused₂, rfl⟩, rfl⟩ := readNext_eq_ok_iff.1 hnext
    obtain ⟨w₂, w₂', _, hw₂, hw₂', ⟨c, used₃, hc, hused₃, rfl⟩, rfl⟩ := readNext_eq_ok_iff.1 hlast
    obtain ⟨w₃, hw₃, rfl⟩ := readClose_eq_ok_iff.1 hclose
    refine ⟨[a, b, c], w, _, .triple ha hb hc, hw, inText_triple_iff.2 ⟨used₁, w₁, w₁', used₂, w₂,
      w₂', used₃, w₃, hused₁, hw₁, hw₁', hused₂, hw₂, hw₂', hused₃, hw₃, rfl⟩, ?_⟩
    simp only [List.append_assoc, List.cons_append]
  · rintro ⟨values, w, used, hvalues, hw, hused, rfl⟩
    cases hvalues with
    | @triple a b c _ ha hb hc =>
      obtain ⟨used₁, w₁, w₁', used₂, w₂, w₂', used₃, w₃, hused₁, hw₁, hw₁', hused₂, hw₂, hw₂',
        hused₃, hw₃, rfl⟩ := inText_triple_iff.1 hused
      have hid (next : Text) : readFirst (w ++ (used₁ ++ next)) = .ok (s.id, next) :=
        readSpacedString_eq_ok_iff.2 ⟨w, _, hw, ⟨a, used₁, ha, hused₁, rfl⟩, rfl⟩
      have hname (next : Text) :
          readNext (w₁ ++ ',' :: (w₁' ++ (used₂ ++ next))) = .ok (s.name, next) :=
        readNext_eq_ok_iff.2 ⟨w₁, w₁', _, hw₁, hw₁', ⟨b, used₂, hb, hused₂, rfl⟩, rfl⟩
      have hdescription (next : Text) :
          readNext (w₂ ++ ',' :: (w₂' ++ (used₃ ++ next))) = .ok (s.description, next) :=
        readNext_eq_ok_iff.2 ⟨w₂, w₂', _, hw₂, hw₂', ⟨c, used₃, hc, hused₃, rfl⟩, rfl⟩
      have hclose : readClose (w₃ ++ ']' :: rest) = .ok rest :=
        readClose_eq_ok_iff.2 ⟨w₃, hw₃, rfl⟩
      simp only [List.append_assoc, List.cons_append]
      rw [readTriple, bind_of_ok (hid _)]
      dsimp only
      rw [bind_of_ok (hname _)]
      dsimp only
      rw [bind_of_ok (hdescription _)]
      dsimp only
      rw [bind_of_ok hclose]

/-! ## Symbols as objects -/

section
variable {fields fields' : Fields} {s : Symbol}

theorem readMember_sound {key : Text} (h : readMember fields key t = .ok (fields', rest)) :
    ∃ w w' v used, AllSpace w ∧ AllSpace w' ∧ Takes fields key v fields' ∧ InGrammar v used ∧
      t = w ++ ':' :: (w' ++ (used ++ rest)) := by
  rw [readMember] at h
  split at h
  next hother =>
    obtain ⟨after, hcolon, h⟩ := bind_eq_ok_iff.1 h
    obtain ⟨⟨v, after'⟩, hvalue, h⟩ := bind_eq_ok_iff.1 h
    cases h
    obtain ⟨w, w', hw, hw', rfl⟩ := Json.readColon_sound hcolon
    obtain ⟨used, hused, rfl⟩ := Json.readValue_sound hvalue
    exact ⟨w, w', v, used, hw, hw', .other hother, ⟨_, hused⟩, rfl⟩
  next field hfield =>
    split at h
    · cases h
    next hnew =>
      obtain ⟨after, hcolon, h⟩ := bind_eq_ok_iff.1 h
      obtain ⟨⟨text, after'⟩, hstring, h⟩ := bind_eq_ok_iff.1 h
      cases h
      obtain ⟨w, w', hw, hw', rfl⟩ := Json.readColon_sound hcolon
      obtain ⟨v, used, htext, hused, rfl⟩ := readString_eq_ok_iff.1 hstring
      rw [Bool.not_eq_true, Option.isSome_eq_false_iff, Option.isNone_iff_eq_none] at hnew
      exact ⟨w, w', v, used, hw, hw', .field hfield hnew htext, hused, rfl⟩

theorem readMember_complete {key w w' used : Text} {v : Value} (hw : AllSpace w)
    (hw' : AllSpace w') (htakes : Takes fields key v fields') (hused : InGrammar v used)
    (hrest : Number.Stops rest) :
    readMember fields key (w ++ ':' :: (w' ++ (used ++ rest))) = .ok (fields', rest) := by
  have hfirst : Json.NoSpaceFirst (used ++ rest) := by
    obtain ⟨depth, hspelled⟩ := hused
    exact Json.noSpaceFirst_of_value hspelled rest
  have hcolon := Json.readColon_complete hw hw' hfirst
  rw [readMember]
  cases htakes with
  | other hother =>
    rw [hother]
    dsimp only
    rw [bind_of_ok hcolon, bind_of_ok (Json.readAhead_complete hused hrest)]
  | @field field text hfield hnew htext =>
    have hstring : readString (used ++ rest) = .ok (text, rest) :=
      readString_eq_ok_iff.2 ⟨v, used, htext, hused, rfl⟩
    rw [hfield]
    dsimp only
    rw [hnew, if_neg (by decide), bind_of_ok hcolon, bind_of_ok hstring]

/-- A key and the rest of its member, once they are read, are a member at the start of the text
that the fields take in. -/
theorem takes_of_readMember {key afterKey : Text} (hkey : readText t = .ok (key, afterKey))
    (hmember : readMember fields key afterKey = .ok (fields', rest)) :
    ∃ pieces v used, Decodes pieces key ∧ Takes fields key v fields' ∧
      Json.MemberSpelled (pieces, v) used ∧ '"' :: t = used ++ rest := by
  obtain ⟨pieces, k, hcontent, hdecodes, rfl⟩ := Json.readText_sound hkey
  obtain ⟨w, w', v, used, hw, hw', htakes, hused, rfl⟩ := readMember_sound hmember
  refine ⟨pieces, v, _, hdecodes, htakes, ⟨k, w, w', used, hcontent, hw, hw', hused, rfl⟩, ?_⟩
  simp only [List.append_assoc, List.cons_append]

theorem readMember_of_takes {pieces : List Piece} {key used : Text} {v : Value}
    (hspelled : Json.MemberSpelled (pieces, v) used) (hkey : Decodes pieces key)
    (htakes : Takes fields key v fields') (hrest : Number.Stops rest) :
    ∃ after afterKey, used = '"' :: after ∧ readText (after ++ rest) = .ok (key, afterKey) ∧
      readMember fields key afterKey = .ok (fields', rest) := by
  obtain ⟨k, w, w', value, hcontent, hw, hw', hvalue, rfl⟩ := hspelled
  refine ⟨_, _, rfl, ?_, readMember_complete hw hw' htakes hvalue hrest⟩
  simp only [List.append_assoc, List.cons_append]
  exact Json.readText_complete hcontent hkey _

/-- The members that are read complete the symbol that is returned. -/
theorem readMembers_sound {steps : Nat} (h : readMembers steps fields t = .ok (s, rest)) :
    ∃ members used, Completes fields members s ∧ (Phrase.members members).InText used ∧
      t = used ++ '\x7d' :: rest := by
  -- The fields change with every member, so the induction is over the steps for all of them.
  induction steps generalizing fields t with
  | zero => cases h
  | succ steps ih =>
    cases t with
    | nil => cases h
    | cons c t =>
      rw [readMembers.eq_def] at h
      dsimp only at h
      split at h
      next hquote =>
        obtain ⟨⟨key, afterKey⟩, hkey, hfromKey⟩ := bind_eq_ok_iff.1 h
        obtain ⟨⟨fields', afterValue⟩, hmember, hnext⟩ := bind_eq_ok_iff.1 hfromKey
        obtain ⟨pieces, v, used, hdecodes, htakes, hused, ht⟩ := takes_of_readMember hkey hmember
        dsimp only at hnext
        split at hnext
        · cases hnext
        next c' after hskip =>
          obtain ⟨w, hw, rfl⟩ := eq_append_of_skipSpace hskip
          rw [hquote, ht]
          split at hnext
          next hc =>
            split at hnext
            next hs =>
              cases hnext
              refine ⟨[(pieces, v)], used ++ (w ++ []), ?_, ?_, ?_⟩
              · exact (completes_cons hdecodes).2 ⟨fields', htakes, completes_nil.2 hs⟩
              · exact Json.inText_members_cons_iff.2 ⟨used, w, [], hused, hw, .inl ⟨rfl, rfl⟩, rfl⟩
              · rw [hc, List.append_nil, List.append_assoc]
            · cases hnext
          split at hnext
          next hc =>
            obtain ⟨members, others, hmembers, hothers, hskip'⟩ := ih hnext
            obtain ⟨w', hw', rfl⟩ := eq_append_of_skipSpace hskip'
            refine ⟨(pieces, v) :: members, used ++ (w ++ ',' :: (w' ++ others)), ?_, ?_, ?_⟩
            · exact (completes_cons hdecodes).2 ⟨fields', htakes, hmembers⟩
            · exact Json.inText_members_cons_iff.2
                ⟨used, w, _, hused, hw, .inr ⟨w', others, hw', hothers, rfl⟩, rfl⟩
            · simp only [hc, List.append_assoc, List.cons_append]
          · cases hnext
      · cases h

theorem readMembers_complete {members : List Member} {used : Text}
    (hcompletes : Completes fields members s) (hused : (Phrase.members members).InText used)
    {steps : Nat} (hsteps : members.length ≤ steps) (rest : Text) :
    readMembers steps fields (used ++ '\x7d' :: rest) = .ok (s, rest) := by
  induction members generalizing fields used steps with
  | nil =>
    obtain ⟨depth, hused⟩ := hused
    cases hused
  | cons member members ih =>
    obtain ⟨pieces, v⟩ := member
    obtain ⟨key, hdecodes⟩ := hcompletes.1 _ List.mem_cons_self
    obtain ⟨fields', htakes, hcompletes⟩ := (completes_cons hdecodes).1 hcompletes
    obtain ⟨first, w, tail, hspelled, hw, htail, rfl⟩ := Json.inText_members_cons_iff.1 hused
    obtain ⟨less, rfl, hless⟩ := Json.exists_step hsteps
    -- The first member is read in the same way whatever follows it, a brace or a comma.
    have hstops {c : Char} {next : Text} (hc : c = ',' ∨ c = ']' ∨ c = '\x7d') :
        Number.Stops (w ++ c :: next) := Json.stops_padded hw (Json.stops_cons hc)
    simp only [List.append_assoc]
    rcases htail with ⟨hnone, rfl⟩ | ⟨w', others, hw', hothers, rfl⟩
    · obtain rfl := List.length_eq_zero_iff.1 hnone
      obtain ⟨after, afterKey, rfl, hkey, hmember⟩ :=
        readMember_of_takes hspelled hdecodes htakes (hstops (.inr (.inr rfl)))
      rw [List.nil_append, List.cons_append, readMembers, if_pos rfl, bind_of_ok hkey]
      dsimp only
      rw [bind_of_ok hmember]
      dsimp only
      rw [skipSpace_padded hw (noSpaceFirst_cons rfl)]
      dsimp only
      rw [if_pos rfl, completes_nil.1 hcompletes]
    · obtain ⟨after, afterKey, rfl, hkey, hmember⟩ :=
        readMember_of_takes hspelled hdecodes htakes (hstops (.inl rfl))
      have hfirst : Json.NoSpaceFirst (others ++ '\x7d' :: rest) := by
        obtain ⟨depth, hothers⟩ := hothers
        obtain ⟨_, rfl⟩ := Json.first_of_members hothers
        exact noSpaceFirst_cons rfl
      simp only [List.append_assoc, List.cons_append]
      rw [readMembers, if_pos rfl, bind_of_ok hkey]
      dsimp only
      rw [bind_of_ok hmember]
      dsimp only
      rw [skipSpace_padded hw (noSpaceFirst_cons rfl)]
      dsimp only
      rw [if_neg (by decide), if_pos rfl, skipSpace_padded hw' hfirst]
      exact ih hcompletes hothers hless

end

theorem readObject_eq_ok_iff {s : Symbol} :
    readObject t = .ok (s, rest) ↔
      ∃ members w used, Describes (.object members) s ∧ AllSpace w ∧
        (Phrase.members members).InText used ∧ t = w ++ (used ++ '\x7d' :: rest) := by
  constructor
  · intro h
    rw [readObject] at h
    split at h
    · cases h
    next c after hskip =>
      obtain ⟨w, hw, rfl⟩ := eq_append_of_skipSpace hskip
      split at h
      · cases h
      · obtain ⟨members, used, hcompletes, hused, hafter⟩ := readMembers_sound h
        exact ⟨members, w, used, completes_empty_iff.1 hcompletes, hw, hused, by rw [hafter]⟩
  · rintro ⟨members, w, used, hmembers, hw, hused, rfl⟩
    obtain ⟨depth, hspelled⟩ := hused
    -- A step for each character is a step for each member, as a member takes a character at least.
    have hlength : members.length ≤ used.length := (Json.sizes_le_length hspelled).2
    obtain ⟨after, rfl⟩ := Json.first_of_members hspelled
    have hsteps : members.length ≤ (after ++ '\x7d' :: rest).length + 1 := by
      rw [List.length_cons] at hlength
      rw [List.length_append]
      omega
    rw [readObject, List.cons_append, skipSpace_padded hw (noSpaceFirst_cons rfl)]
    exact readMembers_complete (completes_empty_iff.2 hmembers) ⟨depth, hspelled⟩ hsteps rest

/-! ## Listings -/

/-- A symbol is read if an element that describes it stands at the start. -/
theorem readSymbol_eq_ok_iff {s : Symbol} :
    readSymbol t = .ok (s, rest) ↔ StartsWith (Describes · s) t rest := by
  constructor
  · intro h
    cases t with
    | nil => cases h
    | cons c t =>
      rw [readSymbol] at h
      split at h
      next hc =>
        obtain ⟨values, w, used, hvalues, hw, hused, rfl⟩ := readTriple_eq_ok_iff.1 h
        refine ⟨.array values, _, hvalues, Json.inText_array_iff.2 (.inr ⟨w, used, hw, hused, rfl⟩),
          ?_⟩
        simp only [hc, List.cons_append, List.append_assoc, List.nil_append]
      split at h
      next hc =>
        obtain ⟨members, w, used, hmembers, hw, hused, rfl⟩ := readObject_eq_ok_iff.1 h
        refine ⟨.object members, _, hmembers,
          Json.inText_object_iff.2 (.inr ⟨w, used, hw, hused, rfl⟩), ?_⟩
        simp only [hc, List.cons_append, List.append_assoc, List.nil_append]
      · cases h
  · rintro ⟨v, value, hv, hvalue, rfl⟩
    -- What describes a symbol is not empty, so there is something between the brackets.
    cases v with
    | array values =>
      obtain ⟨rfl, -⟩ | ⟨w, used, hw, hused, rfl⟩ := Json.inText_array_iff.1 hvalue
      · cases hv
      · simp only [List.cons_append, List.append_assoc, List.nil_append]
        exact readTriple_eq_ok_iff.2 ⟨values, w, used, hv, hw, hused, rfl⟩
    | object members =>
      obtain ⟨rfl, -⟩ | ⟨w, used, hw, hused, rfl⟩ := Json.inText_object_iff.1 hvalue
      · have hid := (describes_object_iff.1 hv).2 .id
        cases hid
      · simp only [List.cons_append, List.append_assoc, List.nil_append]
        exact readObject_eq_ok_iff.2 ⟨members, w, used, hv, hw, hused, rfl⟩
    | null => cases hv
    | bool _ => cases hv
    | number _ => cases hv
    | string _ => cases hv

/-- Elements that are read describe the symbols, one by one. -/
theorem readSymbols_sound {steps : Nat} {symbols : List Symbol}
    (h : readSymbols steps t = .ok (symbols, rest)) :
    ∃ elements used, List.Forall₂ Describes elements symbols ∧
      (Phrase.elements elements).InText used ∧ t = used ++ ']' :: rest := by
  -- The induction is on the steps of the reader; the elements are put together on the way back.
  induction steps generalizing t symbols with
  | zero => cases h
  | succ steps ih =>
    obtain ⟨⟨s, afterSymbol⟩, hsymbol, hnext⟩ := bind_eq_ok_iff.1 h
    obtain ⟨v, used, hv, hused, rfl⟩ := readSymbol_eq_ok_iff.1 hsymbol
    dsimp only at hv hnext
    split at hnext
    · cases hnext
    next c after hskip =>
      obtain ⟨w, hw, rfl⟩ := eq_append_of_skipSpace hskip
      split at hnext
      next hc =>
        cases hnext
        refine ⟨[v], used ++ (w ++ []), .cons hv .nil, ?_, ?_⟩
        · exact Json.inText_elements_cons_iff.2 ⟨used, w, [], hused, hw, .inl ⟨rfl, rfl⟩, rfl⟩
        · rw [hc, List.append_nil, List.append_assoc]
      split at hnext
      next hc =>
        obtain ⟨⟨others, afterOthers⟩, hothers, hok⟩ := bind_eq_ok_iff.1 hnext
        cases hok
        obtain ⟨elements, used', helements, hused', hskip'⟩ := ih hothers
        obtain ⟨w', hw', rfl⟩ := eq_append_of_skipSpace hskip'
        refine ⟨v :: elements, used ++ (w ++ ',' :: (w' ++ used')), .cons hv helements, ?_, ?_⟩
        · exact Json.inText_elements_cons_iff.2
            ⟨used, w, _, hused, hw, .inr ⟨w', used', hw', hused', rfl⟩, rfl⟩
        · simp only [hc, List.append_assoc, List.cons_append]
      · cases hnext

theorem readSymbols_complete {elements : List Value} {symbols : List Symbol} {used : Text}
    (helements : List.Forall₂ Describes elements symbols)
    (hused : (Phrase.elements elements).InText used) {steps : Nat}
    (hsteps : elements.length ≤ steps) (rest : Text) :
    readSymbols steps (used ++ ']' :: rest) = .ok (symbols, rest) := by
  -- Here the induction is on the elements, and each of them takes one step off.
  induction helements generalizing used steps with
  | nil =>
    obtain ⟨depth, hused⟩ := hused
    cases hused
  | @cons v s elements symbols hv helements ih =>
    obtain ⟨value, w, tail, hvalue, hw, htail, rfl⟩ := Json.inText_elements_cons_iff.1 hused
    obtain ⟨less, rfl, hless⟩ := Json.exists_step hsteps
    have hsymbol (next : Text) : readSymbol (value ++ next) = .ok (s, next) :=
      readSymbol_eq_ok_iff.2 ⟨v, value, hv, hvalue, rfl⟩
    simp only [List.append_assoc]
    rw [readSymbols, bind_of_ok (hsymbol _)]
    dsimp only
    -- The last element stands before the bracket, and any other before a comma.
    rcases htail with ⟨hnone, rfl⟩ | ⟨w', others, hw', hothers, rfl⟩
    · obtain rfl := List.length_eq_zero_iff.1 hnone
      cases helements
      rw [List.nil_append, skipSpace_padded hw (noSpaceFirst_cons rfl)]
      rfl
    · have hfirst : Json.NoSpaceFirst (others ++ ']' :: rest) := by
        obtain ⟨depth, hothers⟩ := hothers
        obtain ⟨c, _, rfl, hspace, -⟩ := Json.first_of_elements hothers
        exact noSpaceFirst_cons hspace
      simp only [List.append_assoc, List.cons_append]
      rw [skipSpace_padded hw (noSpaceFirst_cons rfl)]
      dsimp only
      rw [if_neg (by decide), if_pos rfl, skipSpace_padded hw' hfirst,
        bind_of_ok (ih hothers hless)]

theorem readBody_eq_ok_iff {symbols : List Symbol} :
    readBody t = .ok (symbols, rest) ↔
      ∃ elements used, List.Forall₂ Describes elements symbols ∧
        InGrammar (.array elements) ('[' :: used) ∧ t = used ++ rest := by
  constructor
  · intro h
    rw [readBody] at h
    split at h
    · cases h
    next c after hskip =>
      obtain ⟨w, hw, rfl⟩ := eq_append_of_skipSpace hskip
      split at h
      next hc =>
        cases h
        refine ⟨[], w ++ [']'], .nil, Json.inText_array_iff.2 (.inl ⟨rfl, w, hw, rfl⟩), ?_⟩
        rw [hc, List.append_assoc, List.singleton_append]
      · obtain ⟨elements, used, helements, hused, hafter⟩ := readSymbols_sound h
        refine ⟨elements, w ++ (used ++ [']']), helements,
          Json.inText_array_iff.2 (.inr ⟨w, used, hw, hused, rfl⟩), ?_⟩
        rw [hafter]
        simp only [List.append_assoc, List.singleton_append]
  · rintro ⟨elements, body, helements, hbody, rfl⟩
    obtain ⟨rfl, w, hw, hcons⟩ | ⟨w, used, hw, hused, hcons⟩ := Json.inText_array_iff.1 hbody
    · cases hcons
      cases helements
      rw [List.append_assoc, List.singleton_append, readBody,
        skipSpace_padded hw (noSpaceFirst_cons rfl)]
      rfl
    · cases hcons
      obtain ⟨depth, hspelled⟩ := hused
      have hlength : elements.length ≤ used.length := (Json.sizes_le_length hspelled).2
      obtain ⟨c, after, rfl, hspace, hc⟩ := Json.first_of_elements hspelled
      -- Each element takes a character at least, so a step for each character is enough.
      have hsteps : elements.length ≤ (after ++ ']' :: rest).length + 1 := by
        rw [List.length_cons] at hlength
        rw [List.length_append]
        omega
      have hread := readSymbols_complete helements ⟨depth, hspelled⟩ hsteps rest
      simp only [List.append_assoc, List.cons_append, List.nil_append] at hread ⊢
      rw [readBody, skipSpace_padded hw (noSpaceFirst_cons hspace)]
      dsimp only
      rw [if_neg hc]
      exact hread

/-- A whole text is one array, with blanks around it. -/
def IsListing (elements : List Value) (t : Text) : Prop :=
  ∃ depth, Json.SpelledAlone depth (.array elements) t

/-- **A text is loaded as the symbols that its elements describe**, and only an array is. -/
theorem load_eq_ok_iff {symbols : List Symbol} :
    load t = .ok symbols ↔
      ∃ elements, IsListing elements t ∧ List.Forall₂ Describes elements symbols := by
  constructor
  · intro h
    rw [load] at h
    split at h
    · cases h
    next c after hskip =>
      obtain ⟨w, hw, rfl⟩ := eq_append_of_skipSpace hskip
      split at h
      next hc =>
        obtain ⟨⟨symbols', w'⟩, hbody, h⟩ := bind_eq_ok_iff.1 h
        obtain ⟨⟨⟩, hend, h⟩ := bind_eq_ok_iff.1 h
        cases h
        obtain ⟨elements, used, helements, ⟨depth, hused⟩, rfl⟩ := readBody_eq_ok_iff.1 hbody
        refine ⟨elements, ⟨depth, w, _, w', hw, Json.readEnd_eq_ok.1 hend, hused, ?_⟩, helements⟩
        rw [hc, List.cons_append]
      · cases h
  · rintro ⟨elements, ⟨depth, w, inner, w', hw, hw', hinner, rfl⟩, helements⟩
    -- However an array is spelled, it begins with a bracket.
    obtain ⟨used, rfl⟩ : ∃ used, inner = '[' :: used := by
      cases hinner with
      | emptyArray _ => exact ⟨_, rfl⟩
      | array _ _ => exact ⟨_, rfl⟩
    have hbody : readBody (used ++ w') = .ok (symbols, w') :=
      readBody_eq_ok_iff.2 ⟨elements, used, helements, ⟨depth, hinner⟩, rfl⟩
    rw [load, List.cons_append, skipSpace_padded hw (noSpaceFirst_cons rfl)]
    dsimp only
    rw [if_pos rfl, bind_of_ok hbody, bind_of_ok (Json.readEnd_eq_ok.2 hw')]

theorem IsListing.eq {elements elements' : List Value} (h : IsListing elements t)
    (h' : IsListing elements' t) : elements = elements' := by
  obtain ⟨_, h⟩ := h
  obtain ⟨_, h'⟩ := h'
  exact Value.array.inj (Json.eq_of_spelledAlone h h')

/-- Once the elements are known, loading is a matter of what they describe. -/
theorem load_eq_ok_iff_of_isListing {elements : List Value} {symbols : List Symbol}
    (h : IsListing elements t) :
    load t = .ok symbols ↔ List.Forall₂ Describes elements symbols := by
  rw [load_eq_ok_iff]
  constructor
  · rintro ⟨elements', helements', hdescribes⟩
    rw [h.eq helements']
    exact hdescribes
  · intro hdescribes
    exact ⟨elements, h, hdescribes⟩

theorem exists_describes_of_mem {elements : List Value} {symbols : List Symbol} {v : Value}
    (h : List.Forall₂ Describes elements symbols) (hv : v ∈ elements) : ∃ s, Describes v s := by
  induction h with
  | nil => cases hv
  | cons hfirst _ ih =>
    cases hv with
    | head => exact ⟨_, hfirst⟩
    | tail _ hrest => exact ih hrest

theorem forall₂_describes_congr {elements elements' : List Value} {symbols : List Symbol}
    (h : List.Forall₂ Reformats elements elements') :
    List.Forall₂ Describes elements symbols ↔ List.Forall₂ Describes elements' symbols := by
  induction h generalizing symbols with
  | nil => exact Iff.rfl
  | cons hv _ ih =>
    cases symbols with
    | nil => exact ⟨nofun, nofun⟩
    | cons s symbols => rw [List.forall₂_cons, List.forall₂_cons, hv.describes_iff, ih]

/-- **Listings are read for what they say.** A text is loaded as some symbols exactly if it is one
array whose elements describe them one by one. So two arrays whose elements are the same but for
the order of members, the spelling of strings, blanks and further members are loaded alike; and an
object in which a field is missing, occurs twice or holds no text makes the whole an error. -/
theorem listing_recognised (t : Text) (symbols : List Symbol) :
    (load t = .ok symbols ↔
      ∃ elements, IsListing elements t ∧ List.Forall₂ Describes elements symbols) ∧
    (∀ elements elements' t', IsListing elements t → IsListing elements' t' →
      List.Forall₂ Reformats elements elements' →
        (load t = .ok symbols ↔ load t' = .ok symbols)) ∧
    ∀ elements members (field : Field), IsListing elements t → .object members ∈ elements →
      IsFlawed field.key members → ∃ defect, load t = .error defect := by
  refine ⟨load_eq_ok_iff, ?_, ?_⟩
  · intro elements elements' t' h h' hreformats
    rw [load_eq_ok_iff_of_isListing h, load_eq_ok_iff_of_isListing h',
      forall₂_describes_congr hreformats]
  · intro elements members field h hmember hflawed
    cases hload : load t with
    | error defect => exact ⟨defect, rfl⟩
    | ok loaded =>
      have hdescribes := (load_eq_ok_iff_of_isListing h).1 hload
      obtain ⟨s, hs⟩ := exists_describes_of_mem hdescribes hmember
      exact absurd hs (hflawed.not_describes s)

/-- An object without a description. -/
def bareMembers : List Member :=
  [("id".toList.map .char, .string ("7".toList.map .char)),
    ("name".toList.map .char, .string ("run".toList.map .char))]

def bareListing : Text := "[\x7b\"id\":\"7\",\"name\":\"run\"\x7d]".toList

def plainMembers : List Member :=
  bareMembers ++ [("description".toList.map .char, .string ("go".toList.map .char))]

def plainListing : Text :=
  "[\x7b\"id\":\"7\",\"name\":\"run\",\"description\":\"go\"\x7d]".toList

/-- The same members from the last to the first, one letter of a key in hexadecimal, and in front
a member that is no field's. -/
def turnedMembers : List Member :=
  [("kind".toList.map .char, .array []),
    ("description".toList.map .char, .string ("go".toList.map .char)),
    ([.char 'n', .unit 0x61, .char 'm', .char 'e'], .string ("run".toList.map .char)),
    ("id".toList.map .char, .string ("7".toList.map .char))]

def turnedListing : Text :=
  "[\x7b\"kind\":[], \"description\":\"go\", \"n\\u0061me\":\"run\", \"id\":\"7\"\x7d]\n".toList

theorem membersReformat_turnedMembers : MembersReformat plainMembers turnedMembers := by
  have hturned : MembersReformat plainMembers plainMembers.reverse :=
    .order (List.reverse_perm plainMembers).symm
  -- The extra member stands in front, so the tail has the same members one by one.
  have hspelled : MembersReformat plainMembers.reverse turnedMembers.tail := by
    have hname : Decodes [.char 'n', .unit 0x61, .char 'm', .char 'e'] "name".toList :=
      Json.textOf?_eq_some_iff.1 (by cbv)
    exact .spelling
      (.cons ⟨_, decodes_chars _, decodes_chars _, .inl (.inl rfl)⟩
        (.cons ⟨_, decodes_chars _, hname, .inl (.inl rfl)⟩
          (.cons ⟨_, decodes_chars _, decodes_chars _, .inl (.inl rfl)⟩ .nil)))
  exact hturned.trans (hspelled.trans (.extra (decodes_chars "kind".toList) rfl))

theorem isFlawed_bareMembers : IsFlawed Field.description.key bareMembers := by
  refine .missing (List.forall_mem_cons.2 ⟨?_, List.forall_mem_cons.2 ⟨?_, nofun⟩⟩)
  · exact fun h => absurd (decodes_unique (decodes_chars "id".toList) h) (by decide)
  · exact fun h => absurd (decodes_unique (decodes_chars "name".toList) h) (by decide)

/-- Turning the members around leaves the symbol; leaving one out is an error. -/
theorem listing_recognised_turnedListing :
    load turnedListing = .ok [⟨"7".toList, "run".toList, "go".toList⟩] ∧
      ∃ defect, load bareListing = .error defect := by
  have hplain : IsListing [.object plainMembers] plainListing :=
    ⟨2, Json.read_eq_ok_iff.1 (by cbv)⟩
  have hturned : IsListing [.object turnedMembers] turnedListing :=
    ⟨3, Json.read_eq_ok_iff.1 (by cbv)⟩
  have hbare : IsListing [.object bareMembers] bareListing :=
    ⟨2, Json.read_eq_ok_iff.1 (by cbv)⟩
  have hload : load plainListing = .ok [⟨"7".toList, "run".toList, "go".toList⟩] := by cbv
  obtain ⟨-, hreformat, -⟩ :=
    listing_recognised plainListing [⟨"7".toList, "run".toList, "go".toList⟩]
  obtain ⟨-, -, herror⟩ := listing_recognised bareListing []
  have hsame := hreformat _ _ _ hplain hturned (.cons (.object membersReformat_turnedMembers) .nil)
  exact ⟨hsame.1 hload, herror _ _ .description hbare List.mem_cons_self isFlawed_bareMembers⟩

end SymbolLog.Listing
