/-
Runs of characters of one kind.

Readers take characters while they are of a kind: blanks, digits. Such a run ends where
something else begins, whatever that is, so a run that is put in front of a text is
found again as long as the text does not begin with one more character of the kind.
-/
import SymbolLog.Text.Basic
import Mathlib.Data.List.TakeDrop

set_option autoImplicit false

namespace SymbolLog

namespace Text

section
variable {p : Char → Bool} {run rest : Text}

theorem takeWhile_of_head (hrest : ∀ c, rest.head? = some c → p c = false) :
    rest.takeWhile p = [] := by
  cases rest with
  | nil => rfl
  | cons c rest => rw [List.takeWhile_cons, hrest c rfl, if_neg Bool.false_ne_true]

theorem dropWhile_of_head (hrest : ∀ c, rest.head? = some c → p c = false) :
    rest.dropWhile p = rest := by
  cases rest with
  | nil => rfl
  | cons c rest => rw [List.dropWhile_cons, hrest c rfl, if_neg Bool.false_ne_true]

/-- A run in front of a text that begins with something else is split off again. -/
theorem span_append (hrun : ∀ c ∈ run, p c = true)
    (hrest : ∀ c, rest.head? = some c → p c = false) :
    (run ++ rest).span p = (run, rest) := by
  rw [List.span_eq_takeWhile_dropWhile, List.takeWhile_append_of_pos hrun,
    List.dropWhile_append_of_pos hrun, takeWhile_of_head hrest, dropWhile_of_head hrest,
    List.append_nil]

/-- Nothing behind a text joins its run, if all of it is of another kind. -/
theorem span_append_of_neg {w : Text} (hw : ∀ c ∈ w, p c = false) (t : Text) :
    (t ++ w).span p = ((t.span p).1, (t.span p).2 ++ w) := by
  rw [List.span_eq_takeWhile_dropWhile, List.span_eq_takeWhile_dropWhile]
  induction t with
  | nil =>
    have hhead : ∀ c, w.head? = some c → p c = false := fun c hc => hw c (List.mem_of_mem_head? hc)
    rw [List.nil_append, takeWhile_of_head hhead, dropWhile_of_head hhead]
    rfl
  | cons c t ih =>
    rw [List.cons_append]
    -- Either the run goes on in the text or it ends here; the text behind is not reached.
    by_cases hc : p c = true
    · rw [List.takeWhile_cons_of_pos hc, List.dropWhile_cons_of_pos hc,
        List.takeWhile_cons_of_pos hc, List.dropWhile_cons_of_pos hc]
      rw [Prod.mk.injEq] at ih ⊢
      exact ⟨congrArg _ ih.1, ih.2⟩
    · rw [List.takeWhile_cons_of_neg hc, List.dropWhile_cons_of_neg hc,
        List.takeWhile_cons_of_neg hc, List.dropWhile_cons_of_neg hc]
      rfl

end

end Text

theorem isDigit_bounds {c : Char} (h : isDigit c = true) : 48 ≤ c.toNat ∧ c.toNat ≤ 57 := by
  rw [isDigit, Bool.and_eq_true, decide_eq_true_eq, decide_eq_true_eq] at h
  exact h

/-- Of the blanks, some lie below the digits and the others above. -/
theorem not_isBlank_of_isDigit {c : Char} (h : isDigit c = true) : isBlank c = false := by
  obtain ⟨hlower, hupper⟩ := isDigit_bounds h
  simp only [isBlank, blankRanges, List.any_cons, List.any_nil, Bool.or_eq_false_iff,
    Bool.and_eq_false_iff, decide_eq_false_iff_not, and_true]
  omega

theorem not_isDigit_of_isBlank {c : Char} (h : isBlank c = true) : isDigit c = false := by
  by_cases hdigit : isDigit c = true
  · rw [not_isBlank_of_isDigit hdigit] at h
    cases h
  · exact Bool.eq_false_iff.2 hdigit

end SymbolLog
