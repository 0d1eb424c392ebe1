/-
The reader accepts the grammar and nothing else.

Reading is followed in both directions. Whatever the reader returns, the text that it
has taken spells (`readValue_sound`); and a text that spells a value is read as that
value, wherever the reader stops in between (`readValue_complete`). The number of steps
that the reader is given never decides: it descends into a value, its elements and
their values, and on every second of these steps a character is taken, so twice the
length of the text is enough.

Both are inductions over what they start from. The first goes over the steps of the
reader, for values, elements and members at once; the second goes over the derivation,
with one case for each rule of the grammar.
-/
import SymbolLog.Proofs.Json.Numbers
import SymbolLog.Proofs.Json.Quoted

set_option autoImplicit false

namespace SymbolLog.Json

variable {t w rest : Text}

/-! ## Blanks, names and colons -/

/-- Nothing is skipped at the start. -/
def NoSpaceFirst (t : Text) : Prop := ∀ c, t.head? = some c → isSpace c = false

theorem noSpaceFirst_cons {c : Char} (h : isSpace c = false) : NoSpaceFirst (c :: t) := by
  rintro d ⟨⟩
  exact h

theorem skipSpace_append (hw : AllSpace w) : skipSpace (w ++ t) = skipSpace t :=
  List.dropWhile_append_of_pos hw

theorem skipSpace_of_noSpaceFirst (h : NoSpaceFirst t) : skipSpace t = t :=
  Text.dropWhile_of_head h

/-- All space in front is skipped, and nothing behind it. -/
theorem skipSpace_padded (hw : AllSpace w) (h : NoSpaceFirst t) : skipSpace (w ++ t) = t := by
  rw [skipSpace_append hw, skipSpace_of_noSpaceFirst h]

theorem exists_skipSpace (t : Text) : ∃ w, AllSpace w ∧ t = w ++ skipSpace t :=
  ⟨t.takeWhile isSpace, fun c hc => List.all_eq_true.1 List.all_takeWhile c hc,
    List.takeWhile_append_dropWhile.symm⟩

/-- A name that is read stands at the start, letter by letter. -/
theorem readName_sound {name : Text} (h : readName name t = .ok rest) : t = name ++ rest := by
  induction name generalizing t with
  | nil =>
    cases t with
    | nil => cases h; rfl
    | cons c t => cases h; rfl
  | cons n name ih =>
    cases t with
    | nil => cases h
    | cons c t =>
      rw [readName] at h
      split at h
      next hc => rw [hc, ih h, List.cons_append]
      · cases h

theorem readName_complete (name rest : Text) : readName name (name ++ rest) = .ok rest := by
  induction name with
  | nil =>
    cases rest with
    | nil => rfl
    | cons c rest => rfl
  | cons n name ih => rw [List.cons_append, readName, if_pos rfl, ih]

/-- A colon may stand between spaces. -/
theorem readColon_sound (h : readColon t = .ok rest) :
    ∃ w w', AllSpace w ∧ AllSpace w' ∧ t = w ++ ':' :: (w' ++ rest) := by
  obtain ⟨w, hw, ht⟩ := exists_skipSpace t
  rw [readColon] at h
  split at h
  · cases h
  next c after hskip =>
    split at h
    next hc =>
      cases h
      obtain ⟨w', hw', hafter⟩ := exists_skipSpace after
      refine ⟨w, w', hw, hw', ?_⟩
      rw [← hafter, ← hc, ← hskip]
      exact ht
    · cases h

theorem readColon_complete {w' : Text} (hw : AllSpace w) (hw' : AllSpace w')
    (hrest : NoSpaceFirst rest) : readColon (w ++ ':' :: (w' ++ rest)) = .ok rest := by
  rw [readColon, skipSpace_padded hw (noSpaceFirst_cons rfl)]
  show Except.ok (skipSpace (w' ++ rest)) = _
  rw [skipSpace_padded hw' hrest]

/-! ## Strings -/

/-- The content of a string is scanned up to the closing quote, piece by piece, whatever follows.
-/
theorem scan_complete {pieces : List Piece} (h : Content pieces t) (rest : Text) :
    scan (t ++ '"' :: rest) = (pieces, .closed rest) := by
  induction h with
  | nil =>
    rw [List.nil_append, scan.eq_def]
    rfl
  | plain hquote hback hcontrol _ ih => rw [List.cons_append, scan_char hquote hback hcontrol, ih]
  | @short e c pieces t hshort _ ih =>
    -- The letter of a unit is no short escape, so the two are told apart.
    have hunit : e ≠ 'u' := by
      rintro rfl
      cases hshort
    rw [List.cons_append, List.cons_append, scan_short hunit hshort, ih]
  | unit hunit _ ih =>
    simp only [List.cons_append]
    rw [scan.eq_def]
    simp only [show ('\\' : Char) ≠ '"' by decide, if_true, if_false, hunit, ih]

/-- What is scanned up to a closing quote is the content of a string. The induction is on the
scan, and only its cases that go on to a quote are left. -/
theorem scan_sound {pieces : List Piece} (h : scan t = (pieces, .closed rest)) :
    ∃ used, Content pieces used ∧ t = used ++ '"' :: rest := by
  fun_induction scan t generalizing pieces with
  | case1 => cases h
  | case2 =>
    cases h
    exact ⟨[], .nil, rfl⟩
  | case3 => cases h
  | case4 => cases h
  | case5 a b c d t u hunit pieces stop hscan hback ih =>
    cases h
    obtain ⟨used, hused, rfl⟩ := ih hscan
    exact ⟨_, .unit hunit hused, rfl⟩
  | case6 => cases h
  | case7 => cases h
  | case8 e t hunit c hshort pieces stop hscan hback ih =>
    cases h
    obtain ⟨used, hused, rfl⟩ := ih hscan
    exact ⟨_, .short hshort hused, rfl⟩
  | case9 => cases h
  | case10 c t hquote hback hcontrol pieces stop hscan ih =>
    cases h
    obtain ⟨used, hused, rfl⟩ := ih hscan
    exact ⟨_, .plain hquote hback hcontrol hused, rfl⟩

theorem readPieces_sound {pieces : List Piece} (h : readPieces t = .ok (pieces, rest)) :
    ∃ used, Content pieces used ∧ t = used ++ '"' :: rest := by
  rw [readPieces] at h
  split at h
  next hscan =>
    cases h
    exact scan_sound hscan
  · cases h

theorem readPieces_complete {pieces : List Piece} (h : Content pieces t) (rest : Text) :
    readPieces (t ++ '"' :: rest) = .ok (pieces, rest) := by
  rw [readPieces, scan_complete h]

/-! ## From the reader to the grammar -/

/-- What the reader returns within so many steps is spelled by what it has taken. -/
structure SoundWithin (steps : Nat) : Prop where
  value : ∀ {depth : Nat} {t rest : Text} {v : Value},
    readValue steps depth t = .ok (v, rest) →
      ∃ used, Spelled depth (.value v) used ∧ t = used ++ rest
  elements : ∀ {depth : Nat} {t rest : Text} {values : List Value},
    readElements steps depth t = .ok (values, rest) →
      ∃ used, Spelled depth (.elements values) used ∧ t = used ++ ']' :: rest
  members : ∀ {depth : Nat} {t rest : Text} {members : List Member},
    readMembers steps depth t = .ok (members, rest) →
      ∃ used, Spelled depth (.members members) used ∧ t = used ++ '\x7d' :: rest

section
variable {steps depth : Nat} (ih : SoundWithin steps)
include ih

/-- A value, by its first character. The parts of arrays and objects are read with fewer steps. -/
theorem value_sound_step {v : Value} (h : readValue (steps + 1) depth t = .ok (v, rest)) :
    ∃ used, Spelled depth (.value v) used ∧ t = used ++ rest := by
  cases t with
  | nil => cases h
  | cons c t =>
    rw [readValue.eq_def] at h
    dsimp only at h
    -- The reader decides by the first character, so there is one split for each kind of value.
    split at h
    next hc =>
      obtain ⟨after, hname, hok⟩ := bind_eq_ok_iff.1 h
      cases hok
      exact ⟨_, .null, by rw [hc, readName_sound hname]; rfl⟩
    split at h
    next hc =>
      obtain ⟨after, hname, hok⟩ := bind_eq_ok_iff.1 h
      cases hok
      exact ⟨_, .true, by rw [hc, readName_sound hname]; rfl⟩
    split at h
    next hc =>
      obtain ⟨after, hname, hok⟩ := bind_eq_ok_iff.1 h
      cases hok
      exact ⟨_, .false, by rw [hc, readName_sound hname]; rfl⟩
    split at h
    next hc =>
      obtain ⟨⟨pieces, after⟩, hpieces, hok⟩ := bind_eq_ok_iff.1 h
      cases hok
      obtain ⟨used, hused, ht⟩ := readPieces_sound hpieces
      exact ⟨_, .string hused, by rw [hc, ht]; simp⟩
    split at h
    · obtain ⟨⟨n, after⟩, hnumber, hok⟩ := bind_eq_ok_iff.1 h
      cases hok
      obtain ⟨used, hused, ht⟩ := Number.scan_sound hnumber
      exact ⟨_, .number hused, ht⟩
    split at h
    next hc =>
      obtain ⟨w, hw, ht⟩ := exists_skipSpace t
      cases depth with
      | zero =>
        -- No depth is left for one more bracket, so the reader has refused.
        cases h
      | succ depth =>
        dsimp only at h
        split at h
        next after hskip =>
          cases h
          exact ⟨_, .emptyArray hw, by rw [hc, ht, hskip]; simp⟩
        · obtain ⟨⟨values, after⟩, helements, hok⟩ := bind_eq_ok_iff.1 h
          cases hok
          obtain ⟨used, hused, hskip⟩ := ih.elements helements
          exact ⟨_, .array hw hused, by rw [hc, ht, hskip]; simp⟩
    split at h
    next hc =>
      obtain ⟨w, hw, ht⟩ := exists_skipSpace t
      cases depth with
      | zero => cases h
      | succ depth =>
        dsimp only at h
        split at h
        next after hskip =>
          cases h
          exact ⟨_, .emptyObject hw, by rw [hc, ht, hskip]; simp⟩
        · obtain ⟨⟨members, after⟩, hmembers, hok⟩ := bind_eq_ok_iff.1 h
          cases hok
          obtain ⟨used, hused, hskip⟩ := ih.members hmembers
          exact ⟨_, .object hw hused, by rw [hc, ht, hskip]; simp⟩
    · cases h

/-- An element, and then a closing bracket or a comma with more elements. -/
theorem elements_sound_step {values : List Value}
    (h : readElements (steps + 1) depth t = .ok (values, rest)) :
    ∃ used, Spelled depth (.elements values) used ∧ t = used ++ ']' :: rest := by
  rw [readElements.eq_def] at h
  obtain ⟨⟨v, afterValue⟩, hvalue, hnext⟩ := bind_eq_ok_iff.1 h
  obtain ⟨value, hspelled, ht⟩ := ih.value hvalue
  obtain ⟨w, hw, hafter⟩ := exists_skipSpace afterValue
  dsimp only at hnext
  split at hnext
  · -- The text ends where a bracket or a comma is due.
    cases hnext
  next c after hskip =>
    rw [hskip] at hafter
    split at hnext
    next hc =>
      cases hnext
      exact ⟨_, .lastElement hspelled hw, by rw [ht, hafter, hc]; simp⟩
    split at hnext
    next hc =>
      obtain ⟨⟨others, afterOthers⟩, hothers, hok⟩ := bind_eq_ok_iff.1 hnext
      cases hok
      obtain ⟨w', hw', hafter'⟩ := exists_skipSpace after
      obtain ⟨used, hused, hskip'⟩ := ih.elements hothers
      exact ⟨_, .element hspelled hw hw' hused, by rw [ht, hafter, hc, hafter', hskip']; simp⟩
    · cases hnext

/-- A member, and then a closing brace or a comma with more members. -/
theorem members_sound_step {members : List Member}
    (h : readMembers (steps + 1) depth t = .ok (members, rest)) :
    ∃ used, Spelled depth (.members members) used ∧ t = used ++ '\x7d' :: rest := by
  cases t with
  | nil => cases h
  | cons c t =>
    rw [readMembers.eq_def] at h
    dsimp only at h
    split at h
    next hquote =>
      -- The reader is followed from one step to the next; each leaves the text behind what it has
      -- taken.
      obtain ⟨⟨key, afterKey⟩, hkey, hfromKey⟩ := bind_eq_ok_iff.1 h
      obtain ⟨k, hcontent, ht⟩ := readPieces_sound hkey
      obtain ⟨afterColon, hcolon, hfromColon⟩ := bind_eq_ok_iff.1 hfromKey
      obtain ⟨w₁, w₂, hw₁, hw₂, hafterKey⟩ := readColon_sound hcolon
      obtain ⟨⟨v, afterValue⟩, hvalue, hnext⟩ := bind_eq_ok_iff.1 hfromColon
      obtain ⟨value, hspelled, hafterColon⟩ := ih.value hvalue
      obtain ⟨w, hw, hafter⟩ := exists_skipSpace afterValue
      dsimp only at hafterKey hnext
      split at hnext
      · cases hnext
      next c after hskip =>
        rw [hskip] at hafter
        split at hnext
        next hc =>
          cases hnext
          exact ⟨_, .lastMember hcontent hw₁ hw₂ hspelled hw,
            by rw [hquote, ht, hafterKey, hafterColon, hafter, hc]; simp⟩
        split at hnext
        next hc =>
          obtain ⟨⟨others, afterOthers⟩, hothers, hok⟩ := bind_eq_ok_iff.1 hnext
          cases hok
          obtain ⟨w', hw', hafter'⟩ := exists_skipSpace after
          obtain ⟨used, hused, hskip'⟩ := ih.members hothers
          exact ⟨_, .member hcontent hw₁ hw₂ hspelled hw hw' hused,
            by rw [hquote, ht, hafterKey, hafterColon, hafter, hc, hafter', hskip']; simp⟩
        · cases hnext
    · cases h

end

/-- Each kind of phrase is read soundly within some steps if all kinds are within fewer, so the
induction is on the steps and takes the three together. -/
theorem soundWithin (steps : Nat) : SoundWithin steps := by
  induction steps with
  | zero =>
    refine ⟨?_, ?_, ?_⟩
    · intro _ _ _ _ h
      cases h
    · intro _ _ _ _ h
      cases h
    · intro _ _ _ _ h
      cases h
  | succ steps ih =>
    exact ⟨value_sound_step ih, elements_sound_step ih, members_sound_step ih⟩

/-- **What the reader returns is in the grammar**, and stands at the start of the text. -/
theorem readValue_sound {steps depth : Nat} {v : Value}
    (h : readValue steps depth t = .ok (v, rest)) :
    ∃ used, Spelled depth (.value v) used ∧ t = used ++ rest :=
  (soundWithin steps).value h

/-! ## From the grammar to the reader -/

theorem stops_padded (hw : AllSpace w) (h : Number.Stops t) : Number.Stops (w ++ t) := by
  cases w with
  | nil => exact h
  | cons c w =>
    rintro d ⟨⟩
    have hc := hw c List.mem_cons_self
    simp only [isSpace, Bool.or_eq_true, decide_eq_true_eq] at hc
    obtain ((rfl | rfl) | rfl) | rfl := hc
    · decide
    · decide
    · decide
    · decide

theorem Number.first_of_spells {n : Number} (h : n.Spells t) :
    ∃ c others, t = c :: others ∧ (c = '-' ∨ isDigit c = true) := by
  obtain ⟨fraction, exponent, ⟨⟨hne, hdigits⟩, -⟩, -, -, rfl⟩ := h
  obtain ⟨c, others, hwhole⟩ := List.exists_cons_of_ne_nil hne
  rw [hwhole] at hdigits ⊢
  cases n.negative with
  | true => exact ⟨'-', _, rfl, .inl rfl⟩
  | false => exact ⟨c, _, rfl, .inr (hdigits c List.mem_cons_self)⟩

/-- A value begins with a character that is no blank and closes nothing. -/
theorem first_of_value {depth : Nat} {v : Value} (h : Spelled depth (.value v) t) :
    ∃ c others, t = c :: others ∧ isSpace c = false ∧ c ≠ ']' := by
  cases h with
  -- All but a number begin with a character that is known.
  | null => exact ⟨_, _, rfl, rfl, by decide⟩
  | true => exact ⟨_, _, rfl, rfl, by decide⟩
  | false => exact ⟨_, _, rfl, rfl, by decide⟩
  | string _ => exact ⟨_, _, rfl, rfl, by decide⟩
  | emptyArray _ => exact ⟨_, _, rfl, rfl, by decide⟩
  | array _ _ => exact ⟨_, _, rfl, rfl, by decide⟩
  | emptyObject _ => exact ⟨_, _, rfl, rfl, by decide⟩
  | object _ _ => exact ⟨_, _, rfl, rfl, by decide⟩
  | number hn =>
    obtain ⟨c, others, rfl, rfl | hdigit⟩ := Number.first_of_spells hn
    · exact ⟨_, _, rfl, rfl, by decide⟩
    · refine ⟨c, others, rfl, ?_, ?_⟩
      · have hbounds := isDigit_bounds hdigit
        simp only [isSpace, Bool.or_eq_false_iff, decide_eq_false_iff_not]
        refine ⟨⟨⟨?_, ?_⟩, ?_⟩, ?_⟩
        all_goals
          rintro rfl
          exact absurd hbounds (by decide)
      · rintro rfl
        cases hdigit

theorem noSpaceFirst_of_value {depth : Nat} {v : Value} (h : Spelled depth (.value v) t)
    (rest : Text) : NoSpaceFirst (t ++ rest) := by
  obtain ⟨c, others, rfl, hspace, -⟩ := first_of_value h
  exact noSpaceFirst_cons hspace

/-- Elements begin with a value, so not with what would end an empty array. -/
theorem first_of_elements {depth : Nat} {values : List Value}
    (h : Spelled depth (.elements values) t) :
    ∃ c others, t = c :: others ∧ isSpace c = false ∧ c ≠ ']' := by
  cases h with
  | lastElement hvalue _ =>
    obtain ⟨c, others, rfl, hc⟩ := first_of_value hvalue
    exact ⟨c, _, rfl, hc⟩
  | element hvalue _ _ _ =>
    obtain ⟨c, others, rfl, hc⟩ := first_of_value hvalue
    exact ⟨c, _, rfl, hc⟩

theorem first_of_members {depth : Nat} {members : List Member}
    (h : Spelled depth (.members members) t) : ∃ others, t = '"' :: others := by
  cases h with
  | lastMember _ _ _ _ _ => exact ⟨_, rfl⟩
  | member _ _ _ _ _ _ _ => exact ⟨_, rfl⟩

section
variable {steps depth : Nat} {v : Value} {w' next : Text}

theorem readElements_last
    (hvalue : readValue steps depth (t ++ (w ++ ']' :: rest)) = .ok (v, w ++ ']' :: rest))
    (hw : AllSpace w) :
    readElements (steps + 1) depth (t ++ (w ++ ']' :: rest)) = .ok ([v], rest) := by
  rw [readElements.eq_def]
  dsimp only
  rw [bind_of_ok hvalue]
  dsimp only
  rw [skipSpace_padded hw (noSpaceFirst_cons rfl)]
  rfl

/-- An element before others, if its value is read and the others are. -/
theorem readElements_more {values : List Value}
    (hvalue : readValue steps depth (t ++ (w ++ ',' :: (w' ++ next)))
      = .ok (v, w ++ ',' :: (w' ++ next)))
    (hw : AllSpace w) (hw' : AllSpace w') (hfirst : NoSpaceFirst next)
    (hnext : readElements steps depth next = .ok (values, rest)) :
    readElements (steps + 1) depth (t ++ (w ++ ',' :: (w' ++ next))) = .ok (v :: values, rest) := by
  rw [readElements.eq_def]
  dsimp only
  rw [bind_of_ok hvalue]
  dsimp only
  rw [skipSpace_padded hw (noSpaceFirst_cons rfl)]
  dsimp only
  rw [if_neg (by decide), if_pos rfl, skipSpace_padded hw' hfirst, bind_of_ok hnext]

theorem readMembers_last {key : List Piece} {k w₁ w₂ : Text} (hkey : Content key k)
    (hw₁ : AllSpace w₁) (hw₂ : AllSpace w₂) (hfirst : NoSpaceFirst (t ++ (w ++ '\x7d' :: rest)))
    (hvalue : readValue steps depth (t ++ (w ++ '\x7d' :: rest)) = .ok (v, w ++ '\x7d' :: rest))
    (hw : AllSpace w) :
    readMembers (steps + 1) depth
        ('"' :: (k ++ '"' :: (w₁ ++ ':' :: (w₂ ++ (t ++ (w ++ '\x7d' :: rest))))))
      = .ok ([(key, v)], rest) := by
  rw [readMembers.eq_def]
  dsimp only
  rw [if_pos rfl, bind_of_ok (readPieces_complete hkey _)]
  dsimp only
  rw [bind_of_ok (readColon_complete hw₁ hw₂ hfirst), bind_of_ok hvalue]
  dsimp only
  rw [skipSpace_padded hw (noSpaceFirst_cons rfl)]
  rfl

theorem readMembers_more {key : List Piece} {members : List Member} {k w₁ w₂ : Text}
    (hkey : Content key k) (hw₁ : AllSpace w₁) (hw₂ : AllSpace w₂)
    (hfirst : NoSpaceFirst (t ++ (w ++ ',' :: (w' ++ next))))
    (hvalue : readValue steps depth (t ++ (w ++ ',' :: (w' ++ next)))
      = .ok (v, w ++ ',' :: (w' ++ next)))
    (hw : AllSpace w) (hw' : AllSpace w') (hfirst' : NoSpaceFirst next)
    (hnext : readMembers steps depth next = .ok (members, rest)) :
    readMembers (steps + 1) depth
        ('"' :: (k ++ '"' :: (w₁ ++ ':' :: (w₂ ++ (t ++ (w ++ ',' :: (w' ++ next)))))))
      = .ok ((key, v) :: members, rest) := by
  rw [readMembers.eq_def]
  dsimp only
  rw [if_pos rfl, bind_of_ok (readPieces_complete hkey _)]
  dsimp only
  rw [bind_of_ok (readColon_complete hw₁ hw₂ hfirst), bind_of_ok hvalue]
  dsimp only
  rw [skipSpace_padded hw (noSpaceFirst_cons rfl)]
  dsimp only
  rw [if_neg (by decide), if_pos rfl, skipSpace_padded hw' hfirst', bind_of_ok hnext]

theorem readValue_emptyArray (hw : AllSpace w) :
    readValue (steps + 1) (depth + 1) ('[' :: (w ++ ']' :: rest)) = .ok (.array [], rest) := by
  rw [readValue.eq_def]
  dsimp only
  rw [skipSpace_padded hw (noSpaceFirst_cons rfl)]
  rfl

/-- An array that is not empty, if its elements are read. -/
theorem readValue_array {values : List Value} (hw : AllSpace w)
    (ht : ∃ c others, t = c :: others ∧ isSpace c = false ∧ c ≠ ']')
    (helements : readElements steps depth (t ++ ']' :: rest) = .ok (values, rest)) :
    readValue (steps + 1) (depth + 1) ('[' :: (w ++ (t ++ ']' :: rest)))
      = .ok (.array values, rest) := by
  obtain ⟨c, others, rfl, hspace, hclose⟩ := ht
  have hfirst : NoSpaceFirst (c :: others ++ ']' :: rest) := noSpaceFirst_cons hspace
  rw [readValue.eq_def]
  dsimp only
  rw [skipSpace_padded hw hfirst, if_neg (by decide), if_neg (by decide), if_neg (by decide),
    if_neg (by decide), if_neg (by decide), if_pos rfl]
  split
  -- A closing bracket at once would be an empty array; an element does not begin with one.
  next heq =>
    obtain ⟨rfl, -⟩ := List.cons.inj heq
    exact absurd rfl hclose
  · exact bind_of_ok helements _

theorem readValue_emptyObject (hw : AllSpace w) :
    readValue (steps + 1) (depth + 1) ('\x7b' :: (w ++ '\x7d' :: rest))
      = .ok (.object [], rest) := by
  rw [readValue.eq_def]
  dsimp only
  rw [skipSpace_padded hw (noSpaceFirst_cons rfl)]
  rfl

theorem readValue_object {members : List Member} (hw : AllSpace w)
    (ht : ∃ others, t = '"' :: others)
    (hmembers : readMembers steps depth (t ++ '\x7d' :: rest) = .ok (members, rest)) :
    readValue (steps + 1) (depth + 1) ('\x7b' :: (w ++ (t ++ '\x7d' :: rest)))
      = .ok (.object members, rest) := by
  obtain ⟨others, rfl⟩ := ht
  have hfirst : NoSpaceFirst ('"' :: others ++ '\x7d' :: rest) := noSpaceFirst_cons rfl
  rw [readValue.eq_def]
  dsimp only
  rw [skipSpace_padded hw hfirst]
  exact bind_of_ok hmembers _

/-- A number, if nothing follows that would go on with it. -/
theorem readValue_number {n : Number} (hn : n.Spells t) (hrest : Number.Stops rest) :
    readValue (steps + 1) depth (t ++ rest) = .ok (.number n, rest) := by
  have hscan : Number.scan .malformed (t ++ rest) = .ok (n, rest) := Number.scan_complete hn hrest
  obtain ⟨c, others, rfl, hc⟩ := Number.first_of_spells hn
  -- The first character decides what is read, and that of a number is none of the others.
  have hother : c ≠ 'n' ∧ c ≠ 't' ∧ c ≠ 'f' ∧ c ≠ '"' := by
    obtain rfl | hdigit := hc
    · decide
    · refine ⟨?_, ?_, ?_, ?_⟩
      all_goals
        rintro rfl
        cases hdigit
  rw [List.cons_append, readValue.eq_def]
  dsimp only
  rw [if_neg hother.1, if_neg hother.2.1, if_neg hother.2.2.1, if_neg hother.2.2.2, if_pos hc]
  exact bind_of_ok hscan _

theorem readValue_string {pieces : List Piece} (ht : Content pieces t) :
    readValue (steps + 1) depth ('"' :: (t ++ '"' :: rest)) = .ok (.string pieces, rest) := by
  rw [readValue.eq_def]
  exact bind_of_ok (readPieces_complete ht rest) _

end

/-- A phrase is read as what it is, with enough steps and where it is followed by what may
follow it. -/
def Phrase.IsRead (depth : Nat) : Phrase → Text → Prop
  | .value v, used => ∀ steps rest, 2 * used.length ≤ steps → Number.Stops rest →
    readValue steps depth (used ++ rest) = .ok (v, rest)
  | .elements vs, used => ∀ steps rest, 2 * used.length + 1 ≤ steps →
    readElements steps depth (used ++ ']' :: rest) = .ok (vs, rest)
  | .members ms, used => ∀ steps rest, 2 * used.length + 1 ≤ steps →
    readMembers steps depth (used ++ '\x7d' :: rest) = .ok (ms, rest)

theorem exists_step {n steps : Nat} (h : n + 1 ≤ steps) : ∃ k, steps = k + 1 ∧ n ≤ k :=
  ⟨steps - 1, by omega, by omega⟩

/-- What separates or closes values goes on with no number. -/
theorem stops_cons {c : Char} (h : c = ',' ∨ c = ']' ∨ c = '\x7d') : Number.Stops (c :: rest) := by
  rintro d ⟨⟩
  obtain rfl | rfl | rfl := h
  · decide
  · decide
  · decide

/-- A phrase of the grammar is read, by induction on how it is spelled: each rule of the grammar
is one of the steps above. -/
theorem isRead_of_spelled {depth : Nat} {phrase : Phrase} {used : Text}
    (h : Spelled depth phrase used) : phrase.IsRead depth used := by
  -- A bracket takes one character for the two steps down to the elements and to the value of
  -- the first, which is where the factor of `IsRead` comes from.
  induction h with
  | null =>
    intro steps rest hsteps _
    obtain ⟨k, rfl, -⟩ := exists_step hsteps
    exact bind_of_ok (readName_complete ['u', 'l', 'l'] rest) _
  | true =>
    intro steps rest hsteps _
    obtain ⟨k, rfl, -⟩ := exists_step hsteps
    exact bind_of_ok (readName_complete ['r', 'u', 'e'] rest) _
  | false =>
    intro steps rest hsteps _
    obtain ⟨k, rfl, -⟩ := exists_step hsteps
    exact bind_of_ok (readName_complete ['a', 'l', 's', 'e'] rest) _
  | number hn =>
    intro steps rest hsteps hrest
    obtain ⟨c, others, rfl, -⟩ := Number.first_of_spells hn
    obtain ⟨k, rfl, -⟩ := exists_step hsteps
    exact readValue_number hn hrest
  | string ht =>
    intro steps rest hsteps _
    obtain ⟨k, rfl, -⟩ := exists_step hsteps
    rw [List.cons_append, List.append_assoc]
    exact readValue_string ht
  | emptyArray hw =>
    intro steps rest hsteps _
    obtain ⟨k, rfl, -⟩ := exists_step hsteps
    rw [List.cons_append, List.append_assoc]
    exact readValue_emptyArray hw
  | array hw ht ih =>
    intro steps rest hsteps _
    simp only [List.length_append, List.length_cons, List.length_nil] at hsteps
    obtain ⟨k, rfl⟩ : ∃ k, steps = k + 1 := ⟨steps - 1, by omega⟩
    rw [List.cons_append, List.append_assoc, List.append_assoc]
    exact readValue_array hw (first_of_elements ht) (ih k rest (by omega))
  | emptyObject hw =>
    intro steps rest hsteps _
    obtain ⟨k, rfl, -⟩ := exists_step hsteps
    rw [List.cons_append, List.append_assoc]
    exact readValue_emptyObject hw
  | object hw ht ih =>
    intro steps rest hsteps _
    simp only [List.length_append, List.length_cons, List.length_nil] at hsteps
    obtain ⟨k, rfl⟩ : ∃ k, steps = k + 1 := ⟨steps - 1, by omega⟩
    rw [List.cons_append, List.append_assoc, List.append_assoc]
    exact readValue_object hw (first_of_members ht) (ih k rest (by omega))
  | lastElement ht hw ih =>
    intro steps rest hsteps
    obtain ⟨k, rfl, hk⟩ := exists_step hsteps
    rw [List.append_assoc]
    refine readElements_last (ih k _ ?_ (stops_padded hw (stops_cons (.inr (.inl rfl))))) hw
    rw [List.length_append] at hk
    omega
  | element ht hw hw' hothers ih ihothers =>
    intro steps rest hsteps
    obtain ⟨k, rfl, hk⟩ := exists_step hsteps
    simp only [List.length_append, List.length_cons] at hk
    obtain ⟨c, others, rfl, hspace, -⟩ := first_of_elements hothers
    have hfirst : NoSpaceFirst (c :: others ++ ']' :: rest) := noSpaceFirst_cons hspace
    simp only [List.append_assoc, List.cons_append] at hfirst ⊢
    exact readElements_more (ih k _ (by omega) (stops_padded hw (stops_cons (.inl rfl)))) hw hw'
      hfirst (ihothers k rest (by simp only [List.length_cons] at hk ⊢; omega))
  | lastMember hkey hw₁ hw₂ ht hw ih =>
    intro steps rest hsteps
    obtain ⟨k, rfl, hk⟩ := exists_step hsteps
    simp only [List.length_append, List.length_cons] at hk
    simp only [List.append_assoc, List.cons_append]
    exact readMembers_last hkey hw₁ hw₂ (noSpaceFirst_of_value ht _)
      (ih k _ (by omega) (stops_padded hw (stops_cons (.inr (.inr rfl))))) hw
  | member hkey hw₁ hw₂ ht hw hw' hothers ih ihothers =>
    intro steps rest hsteps
    obtain ⟨k, rfl, hk⟩ := exists_step hsteps
    simp only [List.length_append, List.length_cons] at hk
    obtain ⟨others, rfl⟩ := first_of_members hothers
    have hfirst : NoSpaceFirst ('"' :: (others ++ '\x7d' :: rest)) := noSpaceFirst_cons rfl
    simp only [List.append_assoc, List.cons_append]
    exact readMembers_more hkey hw₁ hw₂ (noSpaceFirst_of_value ht _)
      (ih k _ (by omega) (stops_padded hw (stops_cons (.inl rfl)))) hw hw' hfirst
      (ihothers k rest (by simp only [List.length_cons] at hk ⊢; omega))

/-- **What the grammar spells is read**, as the value that it spells. -/
theorem readValue_complete {depth steps : Nat} {v : Value} {used : Text}
    (h : Spelled depth (.value v) used) (hsteps : 2 * used.length ≤ steps)
    (hrest : Number.Stops rest) : readValue steps depth (used ++ rest) = .ok (v, rest) :=
  isRead_of_spelled h steps rest hsteps hrest

/-! ## Whole texts -/

/-- Behind the value of a text there may be space and nothing else. -/
theorem readEnd_eq_ok : readEnd t = .ok () ↔ AllSpace t := by
  obtain ⟨w, hw, ht⟩ := exists_skipSpace t
  rw [readEnd]
  constructor
  · intro h
    split at h
    next hempty =>
      rw [List.isEmpty_iff] at hempty
      rw [ht, hempty, List.append_nil]
      exact hw
    · cases h
  · intro h
    have hskip := skipSpace_append (t := []) h
    rw [List.append_nil] at hskip
    rw [hskip]
    rfl

/-- A whole text is read as a value if and only if it spells the value, with blanks around
it. -/
theorem read_eq_ok_iff {depth : Nat} {v : Value} :
    read depth t = .ok v ↔ SpelledAlone depth v t := by
  constructor
  · intro h
    obtain ⟨w, hw, ht⟩ := exists_skipSpace t
    obtain ⟨⟨v', after⟩, hvalue, hrest⟩ := bind_eq_ok_iff.1 h
    obtain ⟨⟨⟩, hend, hok⟩ := bind_eq_ok_iff.1 hrest
    cases hok
    obtain ⟨used, hused, hskip⟩ := readValue_sound hvalue
    refine ⟨w, used, after, hw, readEnd_eq_ok.1 hend, hused, ?_⟩
    rw [← hskip]
    exact ht
  · rintro ⟨w, used, w', hw, hw', hused, rfl⟩
    have hstops : Number.Stops w' := by
      have hpadded := stops_padded (t := []) hw' nofun
      rwa [List.append_nil] at hpadded
    -- There are as many steps as characters, which is enough for every value.
    have hread : readAhead depth (used ++ w') = .ok (v, w') := by
      refine readValue_complete hused ?_ hstops
      rw [List.length_append]
      omega
    rw [read, skipSpace_padded hw (noSpaceFirst_of_value hused w'), bind_of_ok hread]
    exact bind_of_ok (readEnd_eq_ok.2 hw') _

end SymbolLog.Json
