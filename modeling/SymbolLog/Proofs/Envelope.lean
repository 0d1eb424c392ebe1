/-
Which lines are envelopes, and what an envelope says.

A line is looked at as JSON first and as it stands otherwise, so a mistake in either direction
costs a symbol: a line that is taken for an envelope hides what stands in it, and an envelope that
is not recognised spills its syntax into a description. `IsObject` says what has to be recognised.
It mentions the grammar and the limits and no reader: the depth is that of the value, the strings
and numbers are those that occur in it, and blanks are those of JSON. `HasMessage` says what is to
be taken from it, member by member.

That both are met exactly is put together from what is known of the parts. The reader accepts the
grammar within a depth (`read_eq_ok_iff`), the depth is a bound on the nesting (`spelled_iff`), the
walk through the value checks its strings and numbers (`isExact_iff`), and the member that is found
is the last of its key (`lastMember?_eq_some_iff`).
-/
import SymbolLog.Proofs.Finding
import SymbolLog.Proofs.Json.Limits
import Mathlib

set_option autoImplicit false

namespace SymbolLog

open Json (Piece Value Member AllSpace InGrammar Decodes HasLone IsLastValue)

namespace Entry

/-! ## Objects -/

/-- A line is an object with these members, with blanks around it, and keeps the limits. -/
structure IsObject (line : Text) (members : List Member) : Prop where
  spelled : ∃ w inner w', AllSpace w ∧ AllSpace w' ∧ InGrammar (.object members) inner ∧
    line = w ++ (inner ++ w')
  nesting : (Value.object members).nesting ≤ 127
  strings : ∀ pieces, .string pieces ∈ (Value.object members).atoms → ¬ HasLone pieces
  numbers : ∀ n, .number n ∈ (Value.object members).atoms → n.inRange = true

/-- An object is what the reader returns and the walk through it accepts. -/
theorem isObject_iff {line : Text} {members : List Member} :
    IsObject line members ↔
      Json.read depthLimit line = .ok (.object members) ∧
        (Value.object members).isExact = true := by
  rw [Json.read_eq_ok_iff, Json.isExact_iff]
  constructor
  · rintro ⟨⟨w, inner, w', hw, hw', hinner, hline⟩, hnesting, hstrings, hnumbers⟩
    exact ⟨⟨w, inner, w', hw, hw', Json.spelled_iff.2 ⟨hinner, hnesting⟩, hline⟩, hstrings,
      hnumbers⟩
  · rintro ⟨⟨w, inner, w', hw, hw', hspelled, hline⟩, hstrings, hnumbers⟩
    obtain ⟨hinner, hnesting⟩ := Json.spelled_iff.1 hspelled
    exact ⟨⟨w, inner, w', hw, hw', hinner, hline⟩, hnesting, hstrings, hnumbers⟩

/-! ## Messages -/

/-- What a value says as a message: the text that it spells if it is a string, and nothing
otherwise. -/
inductive Says : Value → Text → Prop where
  | string {pieces : List Piece} {t : Text} (ht : Decodes pieces t) : Says (.string pieces) t
  | other {v : Value} (hv : ∀ pieces, v ≠ .string pieces) : Says v []

/-- The message of an object with these members. -/
inductive HasMessage (members : List Member) : Text → Prop where
  /-- The last member with the key decides. -/
  | last {v : Value} {message : Text} (hlast : IsLastValue messageKey members v)
    (htext : Says v message) : HasMessage members message
  | absent (hnone : ∀ member ∈ members, ¬ Decodes member.1 messageKey) : HasMessage members []

/-- What a value says as a message: its text if it is a string, and nothing otherwise. -/
theorem says_iff {v : Value} {message : Text}
    (hstrings : ∀ pieces, v = .string pieces → ¬ HasLone pieces) :
    Says v message ↔ v.text?.getD [] = message := by
  constructor
  · rintro (ht | hv)
    · rw [Value.text?, Json.textOf?_eq_some_iff.2 ht]
      rfl
    · cases v with
      | string pieces => exact absurd rfl (hv pieces)
      | null => rfl
      | bool b => rfl
      | number n => rfl
      | array elements => rfl
      | object members => rfl
  · rintro rfl
    cases v with
    | string pieces =>
      obtain ⟨t, ht⟩ := Json.exists_decodes_iff.2 (hstrings pieces rfl)
      rw [Value.text?, Json.textOf?_eq_some_iff.2 ht]
      exact .string ht
    | null => exact .other nofun
    | bool b => exact .other nofun
    | number n => exact .other nofun
    | array elements => exact .other nofun
    | object members => exact .other nofun

/-- The message of an object is that of the last member with the key, or empty if there is none.
-/
theorem hasMessage_iff {line : Text} {members : List Member} {message : Text}
    (hobject : IsObject line members) :
    HasMessage members message ↔ messageOf members = message := by
  unfold messageOf
  cases hlast : Json.lastMember? messageKey members with
  | none =>
    have hnone := Json.lastMember?_eq_none_iff.1 hlast
    constructor
    · rintro (⟨hvalue, -⟩ | -)
      · rw [Json.lastMember?_eq_some_iff.2 hvalue] at hlast
        cases hlast
      · rfl
    · rintro rfl
      exact .absent hnone
  | some v =>
    have hvalue := Json.lastMember?_eq_some_iff.1 hlast
    -- The value is an atom of the object if it is a string, so no half of a pair stands alone in
    -- it.
    have hstrings : ∀ pieces, v = .string pieces → ¬ HasLone pieces := by
      rintro pieces rfl
      obtain ⟨before, key, after, rfl, -, -⟩ := hvalue
      have hatom : .string pieces ∈ (Value.string pieces).atoms := List.mem_singleton_self _
      exact hobject.strings pieces (Json.mem_atomsOfMembers List.mem_append_cons_self hatom)
    constructor
    · rintro (⟨hother, htext⟩ | hnone)
      · rw [Json.lastMember?_eq_some_iff.2 hother] at hlast
        cases hlast
        exact (says_iff hstrings).1 htext
      · rw [Json.lastMember?_eq_none_iff.2 hnone] at hlast
        cases hlast
    · intro hmessage
      exact .last hvalue ((says_iff hstrings).2 hmessage)

/-! ## Lines -/

/-- A line that is an object within the limits is an envelope, with the message of the object. -/
theorem ofLine_of_isObject {line : Text} {members : List Member} {message : Text}
    (hobject : IsObject line members) (hmessage : HasMessage members message) :
    ofLine line = .envelope message := by
  obtain ⟨hread, hexact⟩ := isObject_iff.1 hobject
  exact ofLine_eq_envelope_iff.2
    ⟨members, Json.read_eq_ok_iff.1 hread, hexact, (hasMessage_iff hobject).1 hmessage⟩

/-- A line that is an envelope is an object within the limits. -/
theorem exists_isObject_of_ofLine {line message : Text} (h : ofLine line = .envelope message) :
    ∃ members, IsObject line members ∧ HasMessage members message := by
  obtain ⟨members, hspelled, hexact, hmessage⟩ := ofLine_eq_envelope_iff.1 h
  have hobject := isObject_iff.2 ⟨Json.read_eq_ok_iff.2 hspelled, hexact⟩
  exact ⟨members, hobject, (hasMessage_iff hobject).2 hmessage⟩

/-- **The lines that are envelopes are the objects, and what they say is their message.** Every
object has exactly one message; a line is an envelope with a message exactly if it is an object
that has it; and a line that is no object stays as it is. So objects with the same message are the
same entry and yield the same, whatever else is in them and however they are written. -/
theorem ofLine_classified (line : Text) :
    (∀ members, IsObject line members → ∃! message, HasMessage members message) ∧
      (∀ message, ofLine line = .envelope message ↔
        ∃ members, IsObject line members ∧ HasMessage members message) ∧
      ((∀ members, ¬ IsObject line members) ↔ ofLine line = .raw line) ∧
      ∀ members other others message, IsObject line members → HasMessage members message →
        IsObject other others → HasMessage others message →
          ofLine line = ofLine other ∧ Finding.ofLine line = Finding.ofLine other := by
  -- All four parts come from two facts: an object is an envelope with its message, and an
  -- envelope is such an object.
  refine ⟨?_, ?_, ?_, ?_⟩
  · intro members hobject
    refine ⟨messageOf members, (hasMessage_iff hobject).2 rfl, ?_⟩
    intro message hmessage
    exact ((hasMessage_iff hobject).1 hmessage).symm
  · intro message
    constructor
    · exact exists_isObject_of_ofLine
    · rintro ⟨members, hobject, hmessage⟩
      exact ofLine_of_isObject hobject hmessage
  · constructor
    · intro hnone
      apply ofLine_eq_raw
      intro message hline
      obtain ⟨members, hobject, -⟩ := exists_isObject_of_ofLine hline
      exact hnone members hobject
    · intro hraw members hobject
      rw [ofLine_of_isObject hobject ((hasMessage_iff hobject).2 rfl)] at hraw
      cases hraw
  · intro members other others message hobject hmessage hobject' hmessage'
    have hline := ofLine_of_isObject hobject hmessage
    have hother := ofLine_of_isObject hobject' hmessage'
    refine ⟨hline.trans hother.symm, ?_⟩
    rw [Finding.ofLine_of_envelope (ofLine_trim_of_envelope hline),
      Finding.ofLine_of_envelope (ofLine_trim_of_envelope hother)]

/-- An object with a character beyond U+FFFF in its message, and the mark in another member. -/
def pairedLine : Text :=
  "\x7b\"message\":\"Symbol ID:1 Name:\\ud83d\\ude00 Desc:\",".toList
    ++ "\"x\":[\x7b\"message\":\"Symbol ID:\"\x7d]\x7d".toList

/-- A message with a pair of units, and another one in an object further down. -/
def pairedMembers : List Member :=
  [("message".toList.map .char,
      .string ("Symbol ID:1 Name:".toList.map .char
        ++ .unit 0xD83D :: .unit 0xDE00 :: " Desc:".toList.map .char)),
    (['x'].map .char,
      .array [.object [("message".toList.map .char,
        .string ("Symbol ID:".toList.map .char))]])]

/-- The same message behind another one, with blanks between the tokens. -/
def restatedLine : Text :=
  " \x7b\"message\" :7, \"m\\u0065ssage\":\"Symbol\\u0020ID:1 Name:😀 Desc:\" \x7d\t".toList

/-- The same message, spelled in another way and not the first with its key. -/
def restatedMembers : List Member :=
  [("message".toList.map .char, .number ⟨false, ['7'], [], none⟩),
    (.char 'm' :: .unit 0x65 :: "ssage".toList.map .char,
      .string ("Symbol".toList.map .char
        ++ .unit 0x20 :: "ID:1 Name:😀 Desc:".toList.map .char))]

/-- Two lines with the same message are the same entry and yield the same. -/
theorem ofLine_classified_pairedLine :
    ofLine pairedLine = ofLine restatedLine ∧
      Finding.ofLine pairedLine = Finding.ofLine restatedLine ∧
      HasMessage restatedMembers "Symbol ID:1 Name:😀 Desc:".toList := by
  have hpaired : IsObject pairedLine pairedMembers := isObject_iff.2 ⟨by cbv, by decide⟩
  have hrestated : IsObject restatedLine restatedMembers :=
    isObject_iff.2 ⟨by cbv, by decide +kernel⟩
  have hmessage : HasMessage pairedMembers "Symbol ID:1 Name:😀 Desc:".toList :=
    (hasMessage_iff hpaired).2 (by decide)
  have hsame : HasMessage restatedMembers "Symbol ID:1 Name:😀 Desc:".toList :=
    (hasMessage_iff hrestated).2 (by decide)
  obtain ⟨-, -, -, hequal⟩ := ofLine_classified pairedLine
  obtain ⟨hline, hfinding⟩ := hequal _ _ _ _ hpaired hmessage hrestated hsame
  exact ⟨hline, hfinding, hsame⟩

end Entry

end SymbolLog
