/-
The counters add up.

A line is counted three times, once as a line, once by what it yields and once by how it is
packed, and its symbol goes to a list that knows nothing of the counters. That the four
agree is an invariant of single lines (`Accounted.addFinding`), and a collection is a fold
over lines, whatever failed in between; so it holds of every collection that can be
reached.

Closing relies on it. The symbols that are discarded are a difference, and as a catalogue
is never longer than the list it is made of, the difference and what is left of the list
make up the symbols that were counted.
-/
import SymbolLog.Proofs.Collection.Intakes
import SymbolLog.Proofs.Symbol.Catalogue

set_option autoImplicit false

namespace SymbolLog

/-! ## One line -/

namespace Tally

/-- The lines that are counted by what they yield. -/
def yields (tally : Tally) : Nat :=
  tally.blank + tally.unmarked + tally.unmatched + tally.matched

/-- The lines that are counted by how they are packed, the blank ones included. -/
def packings (tally : Tally) : Nat := tally.blank + tally.envelopes + tally.raw

theorem yields_countPacking (tally : Tally) (packing? : Option Packing) :
    (tally.countPacking packing?).yields = tally.yields := by
  cases packing? with
  | none => rfl
  | some p => cases p <;> rfl

/-- Whatever a line yields, it is counted once for it. -/
theorem yields_countYield (tally : Tally) (finding : Finding) :
    (tally.countYield finding).yields = tally.yields + 1 := by
  cases finding <;> simp only [countYield, yields] <;> omega

theorem packings_countPacking (tally : Tally) (packing? : Option Packing) :
    (tally.countPacking packing?).packings = tally.packings + packing?.toList.length := by
  cases packing? with
  | none => rfl
  | some p =>
    cases p with
    | envelope => simp [countPacking, packings]; omega
    | raw => simp [countPacking, packings]; omega

/-- A line is counted by its packing, or as a blank line. -/
theorem packings_countYield (tally : Tally) (finding : Finding) :
    (tally.countYield finding).packings + finding.packing?.toList.length = tally.packings + 1 := by
  cases finding with
  | blank => simp [countYield, packings, Finding.packing?]; omega
  | unmarked p => rfl
  | unmatched p => rfl
  | symbol p s => rfl

theorem yields_record (tally : Tally) (finding : Finding) :
    (tally.record finding).yields = tally.yields + 1 := by
  rw [record, yields_countYield, yields_countPacking]
  rfl

theorem packings_record (tally : Tally) (finding : Finding) :
    (tally.record finding).packings = tally.packings + 1 := by
  have hline : packings { tally with lines := tally.lines + 1 } = tally.packings := rfl
  have hyield := packings_countYield
    ({ tally with lines := tally.lines + 1 }.countPacking finding.packing?) finding
  rw [packings_countPacking, hline] at hyield
  rw [record]
  omega

/-- The last two counters are not about lines. -/
theorem discarded_record (tally : Tally) (finding : Finding) :
    (tally.record finding).discarded = tally.discarded ∧
      (tally.record finding).unique = tally.unique := by
  cases finding with
  | blank => exact ⟨rfl, rfl⟩
  | unmarked p => cases p <;> exact ⟨rfl, rfl⟩
  | unmatched p => cases p <;> exact ⟨rfl, rfl⟩
  | symbol p s => cases p <;> exact ⟨rfl, rfl⟩

/-- Where the totals are zero, putting them back to zero changes nothing. -/
theorem without_totals {tally : Tally} (hdiscarded : tally.discarded = 0)
    (hunique : tally.unique = 0) : { tally with discarded := 0, unique := 0 } = tally := by
  obtain ⟨lines, blank, envelopes, raw, unmarked, unmatched, matched, discarded, unique⟩ := tally
  dsimp only at hdiscarded hunique
  rw [hdiscarded, hunique]

end Tally

/-! ## Collections -/

/-- The counters of a collection agree with each other and with its symbols. -/
structure Collection.Accounted (c : Collection) : Prop where
  /-- Every line is counted by what it yields. -/
  lines_eq_yields : c.tally.lines
    = c.tally.blank + c.tally.unmarked + c.tally.unmatched + c.tally.matched
  /-- Every line that is not blank is counted by how it is packed. -/
  lines_eq_packings : c.tally.lines = c.tally.blank + c.tally.envelopes + c.tally.raw
  /-- Every symbol that is counted is kept. -/
  matched_eq_length : c.tally.matched = c.symbols.length
  discarded_eq_zero : c.tally.discarded = 0
  unique_eq_zero : c.tally.unique = 0

namespace Collection

theorem accounted_empty : empty.Accounted := ⟨rfl, rfl, rfl, rfl, rfl⟩

/-- **One line** keeps the counters in agreement with each other and with the symbols. -/
theorem Accounted.addFinding {c : Collection} (h : c.Accounted) (finding : Finding) :
    (c.addFinding finding).Accounted where
  lines_eq_yields := by
    have hlines := Tally.lines_record c.tally finding
    have hyields := Tally.yields_record c.tally finding
    have hbefore := h.lines_eq_yields
    simp only [Tally.yields] at hyields
    simp only [Collection.addFinding]
    omega
  lines_eq_packings := by
    have hlines := Tally.lines_record c.tally finding
    have hpackings := Tally.packings_record c.tally finding
    have hbefore := h.lines_eq_packings
    simp only [Tally.packings] at hpackings
    simp only [Collection.addFinding]
    omega
  matched_eq_length := by
    simp only [Collection.addFinding]
    rw [Tally.matched_record, List.length_append, h.matched_eq_length]
  discarded_eq_zero := (Tally.discarded_record c.tally finding).1.trans h.discarded_eq_zero
  unique_eq_zero := (Tally.discarded_record c.tally finding).2.trans h.unique_eq_zero

theorem Accounted.addLines {c : Collection} (h : c.Accounted) (lines : List Text) :
    (c.addLines lines).Accounted := by
  induction lines generalizing c with
  | nil => exact h
  | cons line lines ih => exact ih (h.addFinding (Finding.ofLine line))

/-- **The counters add up.** After any sequence of intakes, whichever of them failed, every
line is counted once by what it yields and once by how it is packed, the symbols that are
counted are those that are kept, and the last two counters are zero. Closing counts the
symbols that are left, which are as many as there are different ids; they and the discarded
ones make up the symbols that were counted; and no other counter changes. -/
theorem takeAll_accounted (intakes : List Intake) :
    let c := (empty.takeAll intakes).1
    c.Accounted ∧
      c.close.symbols.length ≤ c.symbols.length ∧
      c.close.tally.unique = c.close.symbols.length ∧
      c.close.tally.discarded + c.close.tally.unique = c.close.tally.matched ∧
      c.close.tally.unique = (c.symbols.map Symbol.id).toFinset.card ∧
      { c.close.tally with discarded := 0, unique := 0 } = c.tally := by
  intro c
  -- Whatever was taken in, and wherever that broke off, it comes to some lines that were handled.
  have haccounted : c.Accounted := by
    show (empty.takeAll intakes).1.Accounted
    rw [takeAll_eq]
    exact accounted_empty.addLines _
  have hlength : c.close.symbols.length ≤ c.symbols.length :=
    (keptFrom_catalogue c.symbols).length
  have hunique : c.close.tally.unique = c.close.symbols.length := rfl
  have hdiscarded : c.close.tally.discarded = c.symbols.length - c.close.symbols.length := rfl
  have hmatched : c.close.tally.matched = c.symbols.length := haccounted.matched_eq_length
  refine ⟨haccounted, hlength, hunique, by omega, length_catalogue c.symbols, ?_⟩
  exact Tally.without_totals haccounted.discarded_eq_zero haccounted.unique_eq_zero

end Collection

end SymbolLog
