/-
The scan of a number takes the longest text that spells one.

Each part of a number is scanned by a function of its own, and each of them is
described twice. What it takes belongs to the grammar; and it takes all of what the
grammar has there, provided that the text does not go on in a way that would lengthen
the part. What stands behind a number in JSON, a blank, a comma, a bracket or the end
of the text, never does.
-/
import SymbolLog.Proofs.Json.Grammar
import SymbolLog.Proofs.Steps
import SymbolLog.Proofs.Text.Runs

set_option autoImplicit false

namespace SymbolLog.Json

namespace Number

variable {atEnd : Defect} {t rest : Text}

/-- What digits end at. -/
def NoDigitFirst (t : Text) : Prop := ∀ c, t.head? = some c → isDigit c = false

/-- Nothing comes first that would lengthen a number. -/
def Stops (t : Text) : Prop :=
  ∀ c, t.head? = some c → isDigit c = false ∧ c ≠ '.' ∧ c ≠ 'e' ∧ c ≠ 'E'

theorem Stops.noDigitFirst (h : Stops rest) : NoDigitFirst rest := fun c hc => (h c hc).1

/-! ## Digits -/

/-- What is scanned as digits is at least one digit, taken off the text. -/
theorem scanDigits_sound {digits : Text} (h : scanDigits atEnd t = .ok (digits, rest)) :
    IsDigits digits ∧ t = digits ++ rest := by
  cases t with
  | nil => cases h
  | cons c t =>
    rw [scanDigits] at h
    split at h
    next hc =>
      rw [List.span_eq_takeWhile_dropWhile] at h
      cases h
      refine ⟨⟨?_, fun d hd => List.all_eq_true.1 List.all_takeWhile d hd⟩,
        List.takeWhile_append_dropWhile.symm⟩
      rw [List.takeWhile_cons_of_pos hc]
      exact List.cons_ne_nil _ _
    · cases h

/-- Digits are scanned up to the last of them. Here it matters that no digit follows: a run of
digits has no other end. -/
theorem scanDigits_complete {digits : Text} (hdigits : IsDigits digits)
    (hrest : NoDigitFirst rest) : scanDigits atEnd (digits ++ rest) = .ok (digits, rest) := by
  have hspan := Text.span_append hdigits.2 hrest
  obtain ⟨c, others, rfl⟩ := List.exists_cons_of_ne_nil hdigits.1
  rw [List.cons_append] at hspan ⊢
  rw [scanDigits, if_pos (hdigits.2 c List.mem_cons_self), hspan]

/-- A whole part that is scanned has no zero in front of another digit. -/
theorem scanWhole_sound {whole : Text} (h : scanWhole atEnd t = .ok (whole, rest)) :
    IsWhole whole ∧ t = whole ++ rest := by
  obtain ⟨⟨digits, rest'⟩, hdigits, hok⟩ := bind_eq_ok_iff.1 h
  obtain ⟨hisDigits, rfl⟩ := scanDigits_sound hdigits
  dsimp only at hok
  split at hok
  · cases hok
  next hzero =>
    cases hok
    refine ⟨⟨hisDigits, fun hhead => ?_⟩, rfl⟩
    exact Classical.byContradiction fun hne => hzero ⟨hhead, hne⟩

theorem scanWhole_complete {whole : Text} (hwhole : IsWhole whole) (hrest : NoDigitFirst rest) :
    scanWhole atEnd (whole ++ rest) = .ok (whole, rest) := by
  rw [scanWhole, bind_of_ok (scanDigits_complete hwhole.1 hrest)]
  exact if_neg fun hzero => hzero.2 (hwhole.2 hzero.1)

/-! ## Fractions and exponents -/

theorem scanFraction_sound {fraction : Text} (h : scanFraction atEnd t = .ok (fraction, rest)) :
    ∃ used, SpellsFraction fraction used ∧ t = used ++ rest := by
  unfold scanFraction at h
  split at h
  next t =>
    obtain ⟨hdigits, rfl⟩ := scanDigits_sound h
    exact ⟨'.' :: fraction, .inr ⟨hdigits, rfl⟩, rfl⟩
  · cases h
    exact ⟨[], .inl ⟨rfl, rfl⟩, rfl⟩

/-- A fraction is scanned if no point follows where there is none, and no digit where there is
one. -/
theorem scanFraction_complete {fraction used : Text} (h : SpellsFraction fraction used)
    (hrest : NoDigitFirst rest) (hpoint : rest.head? ≠ some '.') :
    scanFraction atEnd (used ++ rest) = .ok (fraction, rest) := by
  obtain ⟨rfl, rfl⟩ | ⟨hdigits, rfl⟩ := h
  · unfold scanFraction
    split
    next heq => exact absurd (congrArg List.head? heq) hpoint
    · rfl
  · exact scanDigits_complete hdigits hrest

/-- The sign of an exponent may be either one or absent, and nothing else is taken. -/
theorem scanExponentSign_sound (t : Text) :
    ∃ sign, SpellsSign (scanExponentSign t).1 sign ∧ t = sign ++ (scanExponentSign t).2 := by
  unfold scanExponentSign
  split
  · exact ⟨['-'], .inl ⟨rfl, rfl⟩, rfl⟩
  · exact ⟨['+'], .inr ⟨rfl, .inl rfl⟩, rfl⟩
  · exact ⟨[], .inr ⟨rfl, .inr rfl⟩, rfl⟩

theorem scanExponentSign_complete {negative : Bool} {sign digits : Text}
    (h : SpellsSign negative sign) (hdigits : IsDigits digits) :
    scanExponentSign (sign ++ (digits ++ rest)) = (negative, digits ++ rest) := by
  obtain ⟨rfl, rfl⟩ | ⟨rfl, rfl | rfl⟩ := h
  · rfl
  · rfl
  · -- Without a sign a digit comes first, and no digit is a sign.
    obtain ⟨hne, hall⟩ := hdigits
    obtain ⟨c, others, rfl⟩ := List.exists_cons_of_ne_nil hne
    have hc := hall c List.mem_cons_self
    unfold scanExponentSign
    split
    next heq =>
      obtain ⟨rfl, -⟩ := List.cons.inj heq
      cases hc
    next heq =>
      obtain ⟨rfl, -⟩ := List.cons.inj heq
      cases hc
    · rfl

theorem scanExponent_sound {exponent : Option Exponent}
    (h : scanExponent atEnd t = .ok (exponent, rest)) :
    ∃ used, SpellsExponent exponent used ∧ t = used ++ rest := by
  cases t with
  | nil =>
    cases h
    exact ⟨[], .inl ⟨rfl, rfl⟩, rfl⟩
  | cons c t =>
    rw [scanExponent] at h
    split at h
    next hletter =>
      obtain ⟨sign, hsign, ht⟩ := scanExponentSign_sound t
      -- Of the scan of the sign only its law is used.
      generalize scanExponentSign t = scanned at h hsign ht
      obtain ⟨negative, after⟩ := scanned
      obtain ⟨⟨digits, rest'⟩, hdigits, hok⟩ := bind_eq_ok_iff.1 h
      obtain ⟨hisDigits, hafter⟩ := scanDigits_sound hdigits
      cases hok
      refine ⟨c :: (sign ++ digits), .inr ⟨_, c, sign, rfl, hletter, hsign, hisDigits, rfl⟩, ?_⟩
      rw [List.cons_append, List.append_assoc, ← hafter, ← ht]
    · cases h
      exact ⟨[], .inl ⟨rfl, rfl⟩, rfl⟩

/-- An exponent is scanned as it is written. Behind a number without one there must be no letter
that would begin it. -/
theorem scanExponent_complete {exponent : Option Exponent} {used : Text}
    (h : SpellsExponent exponent used) (hrest : Stops rest) :
    scanExponent atEnd (used ++ rest) = .ok (exponent, rest) := by
  obtain ⟨rfl, rfl⟩ | ⟨e, letter, sign, rfl, hletter, hsign, hdigits, rfl⟩ := h
  · -- No exponent is found where none was written, for no letter of one follows.
    cases rest with
    | nil => rfl
    | cons c rest =>
      obtain ⟨-, -, hlower, hupper⟩ := hrest c rfl
      rw [List.nil_append, scanExponent, if_neg (not_or.2 ⟨hlower, hupper⟩)]
  · rw [List.cons_append, List.append_assoc, scanExponent, if_pos hletter,
      scanExponentSign_complete hsign hdigits]
    exact bind_of_ok (scanDigits_complete hdigits hrest.noDigitFirst) _

/-! ## The whole number -/

theorem scanSign_sound (t : Text) : t = signText (scanSign t).1 ++ (scanSign t).2 := by
  unfold scanSign
  split
  · rfl
  · rfl

/-- A minus is taken, and a whole part does not begin with one. -/
theorem scanSign_complete (negative : Bool) {whole : Text} (hwhole : IsWhole whole) :
    scanSign (signText negative ++ (whole ++ rest)) = (negative, whole ++ rest) := by
  cases negative with
  | true => rfl
  | false =>
    obtain ⟨⟨hne, hall⟩, -⟩ := hwhole
    obtain ⟨c, others, rfl⟩ := List.exists_cons_of_ne_nil hne
    have hc := hall c List.mem_cons_self
    -- Without a sign the whole part comes first, and it begins with a digit.
    show scanSign (c :: (others ++ rest)) = _
    unfold scanSign
    split
    next heq =>
      obtain ⟨rfl, -⟩ := List.cons.inj heq
      cases hc
    · rfl

/-- **A scanned number is a number of the grammar**, and nothing but its text is taken. -/
theorem scan_sound {n : Number} (h : scan atEnd t = .ok (n, rest)) :
    ∃ used, n.Spells used ∧ t = used ++ rest := by
  have hsign := scanSign_sound t
  rw [scan] at h
  -- The parts are peeled off in the order in which they are scanned.
  generalize scanSign t = scanned at h hsign
  obtain ⟨negative, afterSign⟩ := scanned
  obtain ⟨⟨whole, afterWhole⟩, hwhole, hfromWhole⟩ := bind_eq_ok_iff.1 h
  obtain ⟨⟨fraction, afterFraction⟩, hfraction, hfromFraction⟩ := bind_eq_ok_iff.1 hfromWhole
  obtain ⟨⟨exponent, afterExponent⟩, hexponent, hok⟩ := bind_eq_ok_iff.1 hfromFraction
  cases hok
  obtain ⟨hisWhole, hafterSign⟩ := scanWhole_sound hwhole
  obtain ⟨fractionText, hspellsFraction, hafterWhole⟩ := scanFraction_sound hfraction
  obtain ⟨exponentText, hspellsExponent, hafterFraction⟩ := scanExponent_sound hexponent
  refine ⟨_, ⟨fractionText, exponentText, hisWhole, hspellsFraction, hspellsExponent, rfl⟩, ?_⟩
  rw [hsign, hafterSign, hafterWhole, hafterFraction]
  simp only [List.append_assoc]

/-- Behind the whole digits stands no digit, whatever comes next. -/
theorem noDigitFirst_of_spells {fraction exponent : Text} {f : Text} {e : Option Exponent}
    (hfraction : SpellsFraction f fraction) (hexponent : SpellsExponent e exponent)
    (hrest : Stops rest) :
    NoDigitFirst (fraction ++ (exponent ++ rest)) ∧ NoDigitFirst (exponent ++ rest) ∧
      (exponent ++ rest).head? ≠ some '.' := by
  have hbehind : NoDigitFirst (exponent ++ rest) ∧ (exponent ++ rest).head? ≠ some '.' := by
    obtain ⟨-, rfl⟩ | ⟨_, letter, sign, -, hletter, -, -, rfl⟩ := hexponent
    · exact ⟨hrest.noDigitFirst, fun hhead => (hrest '.' hhead).2.1 rfl⟩
    · obtain rfl | rfl := hletter
      · exact ⟨by rintro c ⟨⟩; decide, by rintro ⟨⟩⟩
      · exact ⟨by rintro c ⟨⟩; decide, by rintro ⟨⟩⟩
  refine ⟨?_, hbehind.1, hbehind.2⟩
  obtain ⟨-, rfl⟩ | ⟨-, rfl⟩ := hfraction
  · exact hbehind.1
  · rintro c ⟨⟩
    decide

/-- **A number of the grammar is scanned**, wherever nothing follows that would go on with it. -/
theorem scan_complete {n : Number} {used : Text} (h : n.Spells used) (hrest : Stops rest) :
    scan atEnd (used ++ rest) = .ok (n, rest) := by
  obtain ⟨fraction, exponent, hwhole, hfraction, hexponent, rfl⟩ := h
  obtain ⟨hbehindWhole, hbehindFraction, hpoint⟩ :=
    noDigitFirst_of_spells hfraction hexponent hrest
  simp only [List.append_assoc]
  rw [scan, scanSign_complete n.negative hwhole]
  dsimp only
  rw [bind_of_ok (scanWhole_complete hwhole hbehindWhole),
    bind_of_ok (scanFraction_complete hfraction hbehindFraction hpoint),
    bind_of_ok (scanExponent_complete hexponent hrest)]

end Number

end SymbolLog.Json
