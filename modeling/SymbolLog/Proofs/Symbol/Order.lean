/-
The order of ids is the order of numbers.

Ids are compared without ever becoming numbers, and this module says that nothing is
lost: on runs of digits of any length the comparison is that of the numbers they
spell (`compareIds_of_digits`). Two facts make it so. Leading zeros add nothing, so
one may compare the significant digits; and a run of digits that begins with no zero
is at least a power of ten that every shorter run stays below, so length decides first
and, between equal lengths, the first digit that differs.

On other ids the comparison still is a total preorder, because it is lexicographic in
two that are; a sort needs no more. Two ids are equal in it if they have the same
significant digits, which for ids that are not empty is to be the same behind the leading
zeros. All of this together is `compareIds_numeric`.
-/
import SymbolLog.Symbol.Order
import SymbolLog.Json.Number
import SymbolLog.Proofs.Text.Runs
import Mathlib

set_option autoImplicit false

namespace SymbolLog

open Json.Number (digitValue digitsValue)

/-! ## A total preorder -/

/-- The two comparisons that ids are sorted by, one after the other. -/
def compareSized : Text → Text → Ordering := compareLex (compareOn Utf8.size) compare

theorem compareIds_eq (a b : Text) :
    compareIds a b = compareSized (significantDigits a) (significantDigits b) := rfl

instance : Std.TransCmp compareSized :=
  inferInstanceAs (Std.TransCmp (compareLex (compareOn Utf8.size) compare))

instance : Std.TransCmp compareIds where
  eq_swap {a b} := by
    rw [compareIds_eq, compareIds_eq]
    exact Std.OrientedCmp.eq_swap
  isLE_trans {a b c} h₁ h₂ := by
    rw [compareIds_eq] at h₁ h₂ ⊢
    exact Std.TransCmp.isLE_trans h₁ h₂

namespace Symbol

theorem notAfter_iff {a b : Symbol} : a.notAfter b = true ↔ (compareIds a.id b.id).isLE = true := by
  unfold notAfter
  cases compareIds a.id b.id with
  | lt => exact ⟨fun _ => rfl, fun _ => rfl⟩
  | eq => exact ⟨fun _ => rfl, fun _ => rfl⟩
  | gt => exact ⟨nofun, nofun⟩

theorem notAfter_trans (a b c : Symbol) (hab : a.notAfter b = true) (hbc : b.notAfter c = true) :
    a.notAfter c = true := by
  rw [notAfter_iff] at hab hbc ⊢
  exact Std.TransCmp.isLE_trans hab hbc

/-- Of two symbols one comes no later than the other, so sorting them is meaningful. -/
theorem notAfter_total (a b : Symbol) : (a.notAfter b || b.notAfter a) = true := by
  cases h : compareIds a.id b.id with
  | lt => simp [notAfter, h]
  | eq => simp [notAfter, h]
  | gt =>
    have hswap : compareIds b.id a.id = .lt := Std.OrientedCmp.lt_of_gt h
    simp [notAfter, hswap]

end Symbol

/-! ## Digits as numbers -/

theorem digitValue_lt {c : Char} (h : isDigit c = true) : digitValue c < 10 := by
  have hbounds := isDigit_bounds h
  have hzero : '0'.toNat = 48 := rfl
  unfold digitValue
  omega

theorem toNat_eq_digitValue {c : Char} (h : isDigit c = true) : c.toNat = digitValue c + 48 := by
  have hbounds := isDigit_bounds h
  have hzero : '0'.toNat = 48 := rfl
  unfold digitValue
  omega

/-- Digits are compared as characters as they are as numbers, since their code points are in
order. -/
theorem compare_digit {c d : Char} (hc : isDigit c = true) (hd : isDigit d = true) :
    compare c d = compare (digitValue c) (digitValue d) := by
  have hlt : c < d ↔ digitValue c < digitValue d := by
    show c.toNat < d.toNat ↔ _
    rw [toNat_eq_digitValue hc, toNat_eq_digitValue hd]
    omega
  have heq : c = d ↔ digitValue c = digitValue d := by
    rw [← Char.toNat_inj, toNat_eq_digitValue hc, toNat_eq_digitValue hd]
    omega
  show compareOfLessAndEq c d = compareOfLessAndEq (digitValue c) (digitValue d)
  unfold compareOfLessAndEq
  simp only [hlt, heq]

/-- Reading digits from some number on shifts that number to the left of them. The accumulator of
the fold is made explicit here and nowhere else. -/
theorem foldl_digits (n : Nat) (digits : Text) :
    digits.foldl (fun n c => n * 10 + digitValue c) n
      = n * 10 ^ digits.length + digitsValue digits := by
  unfold digitsValue
  -- The accumulator is generalised: every step multiplies it by ten.
  induction digits generalizing n with
  | nil => simp
  | cons c digits ih =>
    rw [List.foldl_cons, List.foldl_cons, ih, ih (0 * 10 + digitValue c), List.length_cons,
      Nat.pow_succ, Nat.add_mul, Nat.mul_assoc, Nat.mul_comm 10, Nat.zero_mul, Nat.zero_add]
    omega

theorem digitsValue_cons (c : Char) (digits : Text) :
    digitsValue (c :: digits) = digitValue c * 10 ^ digits.length + digitsValue digits := by
  have hfold := foldl_digits (digitValue c) digits
  rw [← hfold, digitsValue, List.foldl_cons, Nat.zero_mul, Nat.zero_add]

/-- Digits are worth less than a one with as many zeros. -/
theorem digitsValue_lt {digits : Text} (h : ∀ c ∈ digits, isDigit c = true) :
    digitsValue digits < 10 ^ digits.length := by
  induction digits with
  | nil => exact Nat.one_pos
  | cons c digits ih =>
    have hhead : digitValue c < 10 := digitValue_lt (h c List.mem_cons_self)
    have htail := ih fun d hd => h d (List.mem_cons_of_mem c hd)
    rw [digitsValue_cons, List.length_cons, Nat.pow_succ]
    calc digitValue c * 10 ^ digits.length + digitsValue digits
        < digitValue c * 10 ^ digits.length + 10 ^ digits.length := by omega
      _ = (digitValue c + 1) * 10 ^ digits.length := by rw [Nat.add_mul, Nat.one_mul]
      _ ≤ 10 * 10 ^ digits.length := Nat.mul_le_mul_right _ hhead
      _ = 10 ^ digits.length * 10 := Nat.mul_comm _ _

/-- With a first digit that is no zero they are worth at least a one with the zeros of the places
behind it. -/
theorem le_digitsValue {c : Char} {digits : Text} (hc : isDigit c = true) (hzero : c ≠ '0') :
    10 ^ digits.length ≤ digitsValue (c :: digits) := by
  have hpos : 1 ≤ digitValue c := by
    have hvalue := toNat_eq_digitValue hc
    have hne : c.toNat ≠ 48 := fun h => hzero (Char.toNat_inj.1 h)
    omega
  rw [digitsValue_cons]
  calc 10 ^ digits.length = 1 * 10 ^ digits.length := (Nat.one_mul _).symm
    _ ≤ digitValue c * 10 ^ digits.length := Nat.mul_le_mul_right _ hpos
    _ ≤ _ := Nat.le_add_right _ _

theorem compare_add_left (n a b : Nat) : compare (n + a) (n + b) = compare a b := by
  rw [Nat.compare_eq_ite_lt, Nat.compare_eq_ite_lt]
  simp only [Nat.add_lt_add_iff_left]

/-- Between equally long runs of digits the first difference decides, as characters and
as numbers. -/
theorem compare_digits {a b : Text} (hlength : a.length = b.length)
    (ha : ∀ c ∈ a, isDigit c = true) (hb : ∀ c ∈ b, isDigit c = true) :
    compare a b = compare (digitsValue a) (digitsValue b) := by
  induction a generalizing b with
  | nil =>
    rw [List.eq_nil_of_length_eq_zero hlength.symm]
    rfl
  | cons c a ih =>
    cases b with
    | nil => exact absurd hlength nofun
    | cons d b =>
      have hlength' : a.length = b.length := Nat.succ.inj hlength
      have ha' : ∀ x ∈ a, isDigit x = true := fun x hx => ha x (List.mem_cons_of_mem c hx)
      have hb' : ∀ x ∈ b, isDigit x = true := fun x hx => hb x (List.mem_cons_of_mem d hx)
      have hsmalla := digitsValue_lt ha'
      have hsmallb := digitsValue_lt hb'
      rw [List.compare_cons_cons, ih hlength' ha' hb',
        compare_digit (ha c List.mem_cons_self) (hb d List.mem_cons_self), digitsValue_cons,
        digitsValue_cons, hlength']
      rw [hlength'] at hsmalla
      -- A digit more in this place outweighs all that the places behind it can hold.
      cases hcompare : compare (digitValue c) (digitValue d) with
      | lt =>
        have hle : (digitValue c + 1) * 10 ^ b.length ≤ digitValue d * 10 ^ b.length :=
          Nat.mul_le_mul_right _ (Nat.compare_eq_lt.1 hcompare)
        rw [Nat.add_mul, Nat.one_mul] at hle
        exact (Nat.compare_eq_lt.2 (by omega)).symm
      | gt =>
        have hle : (digitValue d + 1) * 10 ^ b.length ≤ digitValue c * 10 ^ b.length :=
          Nat.mul_le_mul_right _ (Nat.compare_eq_gt.1 hcompare)
        rw [Nat.add_mul, Nat.one_mul] at hle
        exact (Nat.compare_eq_gt.2 (by omega)).symm
      | eq =>
        rw [Nat.compare_eq_eq.1 hcompare, compare_add_left]
        rfl

/-! ## Significant digits -/

/-- Digits without a leading zero, or a zero alone. -/
def IsSignificant (digits : Text) : Prop :=
  (∀ c ∈ digits, isDigit c = true) ∧
    (digits = ['0'] ∨ ∃ c rest, digits = c :: rest ∧ c ≠ '0')

theorem digitsValue_dropWhile (digits : Text) :
    digitsValue (digits.dropWhile (· = '0')) = digitsValue digits := by
  induction digits with
  | nil => rfl
  | cons c digits ih =>
    rw [List.dropWhile_cons]
    by_cases hc : c = '0'
    · rw [if_pos (by simpa using hc), ih, digitsValue_cons, hc]
      simp [digitValue]
    · rw [if_neg (by simpa using hc)]

theorem head_dropWhile_ne {digits rest : Text} {c : Char}
    (h : digits.dropWhile (· = '0') = c :: rest) : c ≠ '0' := by
  have hhead := List.head?_dropWhile_not (fun c : Char => decide (c = '0')) digits
  rw [h] at hhead
  simpa using hhead

/-- Of an id of zeros one zero remains. -/
theorem significantDigits_of_zeros {id : Text} (hne : id ≠ [])
    (hdrop : id.dropWhile (· = '0') = []) : significantDigits id = ['0'] := by
  obtain ⟨c, rest, rfl⟩ := List.exists_cons_of_ne_nil hne
  have hzero := List.dropWhile_eq_nil_iff.1 hdrop c List.mem_cons_self
  rw [significantDigits, hdrop, of_decide_eq_true hzero]
  rfl

theorem significantDigits_of_cons {id rest : Text} {c : Char}
    (hdrop : id.dropWhile (· = '0') = c :: rest) : significantDigits id = c :: rest := by
  rw [significantDigits, hdrop]

/-- What remains of an id of digits begins with no zero or is a single one, and has the same
value. -/
theorem significantDigits_of_digits {id : Text} (hne : id ≠ [])
    (hdigits : ∀ c ∈ id, isDigit c = true) :
    IsSignificant (significantDigits id) ∧ digitsValue (significantDigits id) = digitsValue id := by
  have hvalue := digitsValue_dropWhile id
  cases hdrop : id.dropWhile (· = '0') with
  | nil =>
    -- Zeros alone: one of them is kept.
    rw [hdrop] at hvalue
    rw [significantDigits_of_zeros hne hdrop]
    refine ⟨⟨?_, .inl rfl⟩, hvalue⟩
    intro d hd
    rw [List.mem_singleton.1 hd]
    rfl
  | cons c rest =>
    -- Some digit is no zero, and from the first such digit on nothing is dropped.
    rw [hdrop] at hvalue
    rw [significantDigits_of_cons hdrop]
    refine ⟨⟨?_, .inr ⟨c, rest, rfl, head_dropWhile_ne hdrop⟩⟩, hvalue⟩
    intro d hd
    rw [← hdrop] at hd
    exact hdigits d ((List.dropWhile_sublist _).subset hd)

/-- Digits take a byte each, so the size of an id is the number of its digits. -/
theorem size_of_digits {digits : Text} (h : ∀ c ∈ digits, isDigit c = true) :
    Utf8.size digits = digits.length := by
  unfold Utf8.size
  induction digits with
  | nil => rfl
  | cons c digits ih =>
    have hc : c.utf8Size = 1 := by
      have hlt := digitValue_lt (h c List.mem_cons_self)
      have hvalue := toNat_eq_digitValue (h c List.mem_cons_self)
      rw [Char.utf8Size_eq_one_iff, UInt32.le_iff_toNat_le]
      show c.toNat ≤ 127
      omega
    rw [List.foldr_cons, hc, ih fun d hd => h d (List.mem_cons_of_mem c hd), List.length_cons,
      Nat.add_comm]

/-- Among significant digits the shorter run spells the smaller number. -/
theorem digitsValue_lt_of_length {a b : Text} (ha : IsSignificant a) (hb : IsSignificant b)
    (h : a.length < b.length) : digitsValue a < digitsValue b := by
  obtain ⟨hdigits, hform⟩ := hb
  obtain rfl | ⟨c, rest, rfl, hc⟩ := hform
  · -- A zero alone is not longer than any number.
    obtain ⟨-, rfl | ⟨_, _, rfl, -⟩⟩ := ha
    · exact absurd h (Nat.lt_irrefl _)
    · rw [List.length_cons, List.length_singleton] at h
      omega
  · calc digitsValue a < 10 ^ a.length := digitsValue_lt ha.1
      _ ≤ 10 ^ rest.length := Nat.pow_le_pow_right (by decide) (Nat.le_of_lt_succ h)
      _ ≤ digitsValue (c :: rest) := le_digitsValue (hdigits c List.mem_cons_self) hc

/-- Ids that are digits are compared as the numbers they spell. -/
theorem compareIds_of_digits {a b : Text} (hane : a ≠ []) (hbne : b ≠ [])
    (ha : ∀ c ∈ a, isDigit c = true) (hb : ∀ c ∈ b, isDigit c = true) :
    compareIds a b = compare (digitsValue a) (digitsValue b) := by
  obtain ⟨hsiga, hvaluea⟩ := significantDigits_of_digits hane ha
  obtain ⟨hsigb, hvalueb⟩ := significantDigits_of_digits hbne hb
  rw [← hvaluea, ← hvalueb, compareIds_eq]
  show (compare (Utf8.size _) (Utf8.size _)).then (compare _ _) = _
  rw [size_of_digits hsiga.1, size_of_digits hsigb.1]
  -- Sizes in bytes are lengths here, and equal lengths leave the decision to the digits.
  cases hlength : compare (significantDigits a).length (significantDigits b).length with
  | lt =>
    exact (Nat.compare_eq_lt.2
      (digitsValue_lt_of_length hsiga hsigb (Nat.compare_eq_lt.1 hlength))).symm
  | gt =>
    exact (Nat.compare_eq_gt.2
      (digitsValue_lt_of_length hsigb hsiga (Nat.compare_eq_gt.1 hlength))).symm
  | eq => exact compare_digits (Nat.compare_eq_eq.1 hlength) hsiga.1 hsigb.1

/-- Sorted symbols with ids of digits are sorted by their numbers. -/
theorem Symbol.digitsValue_le_of_notAfter {a b : Symbol} (hane : a.id ≠ []) (hbne : b.id ≠ [])
    (ha : ∀ c ∈ a.id, isDigit c = true) (hb : ∀ c ∈ b.id, isDigit c = true)
    (h : a.notAfter b = true) : digitsValue a.id ≤ digitsValue b.id := by
  rw [notAfter_iff, compareIds_of_digits hane hbne ha hb] at h
  exact Nat.isLE_compare.1 h

/-! ## Ids that are equal in the order -/

/-- Nothing but leading zeros is lost. -/
theorem dropWhile_significantDigits (id : Text) :
    (significantDigits id).dropWhile (· = '0') = id.dropWhile (· = '0') := by
  cases hdrop : id.dropWhile (· = '0') with
  | nil =>
    by_cases hne : id = []
    · rw [hne]
      rfl
    · rw [significantDigits_of_zeros hne hdrop]
      rfl
  | cons c rest =>
    have hc := head_dropWhile_ne hdrop
    rw [significantDigits_of_cons hdrop, List.dropWhile_cons_of_neg (by simpa using hc)]

/-- Ids are equal in the order if the same remains of them. They need not be the same id. -/
theorem compareIds_eq_iff {a b : Text} :
    compareIds a b = .eq ↔ significantDigits a = significantDigits b := by
  rw [compareIds_eq]
  constructor
  · intro h
    exact Std.LawfulEqOrd.eq_of_compare (Ordering.then_eq_eq.1 h).2
  · intro h
    rw [h]
    exact Std.ReflCmp.compare_self

/-- Ids that are not empty are equal in the order if they are the same behind their leading
zeros. -/
theorem compareIds_eq_iff_dropWhile {a b : Text} (ha : a ≠ []) (hb : b ≠ []) :
    compareIds a b = .eq ↔ a.dropWhile (· = '0') = b.dropWhile (· = '0') := by
  rw [compareIds_eq_iff]
  constructor
  · intro h
    rw [← dropWhile_significantDigits a, h, dropWhile_significantDigits]
  · intro h
    cases hdrop : a.dropWhile (· = '0') with
    | nil =>
      rw [significantDigits_of_zeros ha hdrop, significantDigits_of_zeros hb (h ▸ hdrop)]
    | cons c rest =>
      rw [significantDigits_of_cons hdrop, significantDigits_of_cons (h ▸ hdrop)]

/-! ## The order as a whole -/

/-- **The order of ids is the order of the numbers they spell**, at any length, and numbers are
equal exactly if their digits are the same behind the leading zeros. On ids of any kind, digits
or not, it is a total preorder, which is what a sort relies on. -/
theorem compareIds_numeric :
    (∀ a b : Text, a ≠ [] → b ≠ [] → (∀ c ∈ a, isDigit c = true) →
      (∀ c ∈ b, isDigit c = true) →
        compareIds a b = compare (digitsValue a) (digitsValue b) ∧
          (compareIds a b = .eq ↔ a.dropWhile (· = '0') = b.dropWhile (· = '0'))) ∧
      (∀ a, compareIds a a = .eq) ∧ (∀ a b, compareIds b a = (compareIds a b).swap) ∧
      (∀ a b c, compareIds a b = .lt → compareIds b c = .lt → compareIds a c = .lt) ∧
      (∀ a b c, compareIds a b = .eq → compareIds b c = .eq → compareIds a c = .eq) ∧
      ∀ a b c, compareIds a b ≠ .gt → compareIds b c ≠ .gt → compareIds a c ≠ .gt := by
  -- The numbers need digits; the laws of the preorder hold of all texts, and come from the
  -- lexicographic order of sizes and characters.
  refine ⟨?_, ?_, ?_, ?_, ?_, ?_⟩
  · intro a b ha hb hdigitsa hdigitsb
    exact ⟨compareIds_of_digits ha hb hdigitsa hdigitsb, compareIds_eq_iff_dropWhile ha hb⟩
  · intro a
    exact Std.ReflCmp.compare_self
  · intro a b
    exact Std.OrientedCmp.eq_swap
  · intro a b c hab hbc
    exact Std.TransCmp.lt_trans hab hbc
  · intro a b c hab hbc
    exact Std.TransCmp.eq_trans hab hbc
  · intro a b c hab hbc
    have hle := Std.TransCmp.isLE_trans (Ordering.isLE_iff_ne_gt.2 hab)
      (Ordering.isLE_iff_ne_gt.2 hbc)
    exact Ordering.isLE_iff_ne_gt.1 hle

/-- Digits that no machine word holds. -/
def hugeId : Text := List.replicate 23 '9'

/-- A number greater by one, behind a zero. -/
def paddedId : Text := '0' :: '1' :: List.replicate 23 '0'

theorem compareIds_numeric_hugeIds :
    (hugeId ≠ [] ∧ paddedId ≠ [] ∧ (∀ c ∈ hugeId, isDigit c = true) ∧
      (∀ c ∈ paddedId, isDigit c = true) ∧
      compareIds hugeId paddedId = compare (digitsValue hugeId) (digitsValue paddedId) ∧
      (compareIds hugeId paddedId = .eq ↔
        hugeId.dropWhile (· = '0') = paddedId.dropWhile (· = '0'))) ∧
    (compareIds [] ['x'] = .lt ∧ compareIds ['x'] ['é'] = .lt ∧ compareIds [] ['é'] = .lt) ∧
    (compareIds ['0', '0', '7'] ['0', '7'] = .eq ∧ compareIds ['0', '7'] ['7'] = .eq ∧
      compareIds ['0', '0', '7'] ['7'] = .eq) ∧
    (compareIds ['0', 'x'] ['x'] ≠ .gt ∧ compareIds ['x'] ['é'] ≠ .gt ∧
      compareIds ['0', 'x'] ['é'] ≠ .gt) := by
  obtain ⟨hnumbers, -, -, hlt, heq, hle⟩ := compareIds_numeric
  have hne : hugeId ≠ [] ∧ paddedId ≠ [] := by decide
  have hhuge : ∀ c ∈ hugeId, isDigit c = true := by simp [hugeId, isDigit]
  have hpadded : ∀ c ∈ paddedId, isDigit c = true := by simp [paddedId, isDigit]
  refine ⟨⟨hne.1, hne.2, hhuge, hpadded, hnumbers _ _ hne.1 hne.2 hhuge hpadded⟩, ?_, ?_, ?_⟩
  · have hfirst : compareIds [] ['x'] = .lt := by decide
    have hsecond : compareIds ['x'] ['é'] = .lt := by decide
    exact ⟨hfirst, hsecond, hlt _ _ _ hfirst hsecond⟩
  · have hfirst : compareIds ['0', '0', '7'] ['0', '7'] = .eq := by decide
    have hsecond : compareIds ['0', '7'] ['7'] = .eq := by decide
    exact ⟨hfirst, hsecond, heq _ _ _ hfirst hsecond⟩
  · have hfirst : compareIds ['0', 'x'] ['x'] ≠ .gt := by decide
    have hsecond : compareIds ['x'] ['é'] ≠ .gt := by decide
    exact ⟨hfirst, hsecond, hle _ _ _ hfirst hsecond⟩

end SymbolLog
