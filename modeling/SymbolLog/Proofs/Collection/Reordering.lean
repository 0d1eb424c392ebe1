/-
The order of independent lines does not matter.

Two lines depend on each other if the ids of their symbols spell the same number: the later of
two equal ids replaces the earlier one, and two spellings of a number come in the order of
their first appearance. Lines that yield no symbol depend on nothing. If the lines of a log are
rearranged so that lines which depend on each other keep their order, then for every id the
symbols tied with it are the same in the same order (`filter_rearranged`), and the catalogue
has been shown to depend on nothing else. The counters count lines one by one, so to them every
rearrangement is the same (`foldl_record_perm`).

What an order is said to be is a permutation of places and not of lines, since a log may hold
one line twice.
-/
import SymbolLog.Proofs.Collection.Intakes
import SymbolLog.Proofs.Symbol.Ties
import Mathlib

set_option autoImplicit false

namespace SymbolLog

open Json.Number (digitsValue)

/-! ## Counters -/

namespace Tally

def plus (a b : Tally) : Tally where
  lines := a.lines + b.lines
  blank := a.blank + b.blank
  envelopes := a.envelopes + b.envelopes
  raw := a.raw + b.raw
  unmarked := a.unmarked + b.unmarked
  unmatched := a.unmatched + b.unmatched
  matched := a.matched + b.matched
  discarded := a.discarded + b.discarded
  unique := a.unique + b.unique

theorem plus_right_comm (a b c : Tally) : (a.plus b).plus c = (a.plus c).plus b := by
  simp only [plus, Nat.add_right_comm]

/-- Recording a finding adds the same to every tally. -/
theorem record_eq_plus (tally : Tally) (finding : Finding) :
    tally.record finding = tally.plus (zero.record finding) := by
  cases finding with
  | blank => rfl
  | unmarked p => cases p <;> rfl
  | unmatched p => cases p <;> rfl
  | symbol p _ => cases p <;> rfl

theorem foldl_record_perm (tally : Tally) {lines others : List Text} (h : lines.Perm others) :
    lines.foldl (fun tally line => tally.record (Finding.ofLine line)) tally
      = others.foldl (fun tally line => tally.record (Finding.ofLine line)) tally := by
  apply h.foldl_eq'
  intro a _ b _ tally
  rw [record_eq_plus, record_eq_plus tally, plus_right_comm, ← record_eq_plus, ← record_eq_plus]

end Tally

/-! ## Rearranged lines -/

/-- Some lines in another order: at each place there is the line from the place that the
permutation gives. -/
def rearranged (lines : List Text) (σ : Equiv.Perm (Fin lines.length)) : List Text :=
  List.ofFn fun i => lines[σ i]

section
variable {lines : List Text} {σ : Equiv.Perm (Fin lines.length)}

theorem rearranged_perm : (rearranged lines σ).Perm lines := by
  have hperm := σ.ofFn_comp_perm lines.get
  rwa [List.ofFn_get] at hperm

section
variable {p : Text → Bool}
  (h : ∀ i j, i < j → p lines[σ i] = true → p lines[σ j] = true → σ i < σ j)
include h

/-- If some lines keep their order among each other, then in the new order they come from the
places where they stood, from the first to the last. -/
theorem map_places_rearranged :
    ((List.finRange lines.length).filter fun i => p lines[σ i]).map σ
      = (List.finRange lines.length).filter fun i => p lines[i] := by
  have hplaces := List.pairwise_lt_finRange lines.length
  have hperm : (((List.finRange lines.length).filter fun i => p lines[σ i]).map σ).Perm
      ((List.finRange lines.length).filter fun i => p lines[i]) := by
    have hall := σ.map_finRange_perm.filter fun i => p lines[i]
    rwa [List.filter_map] at hall
  have hmoved : (((List.finRange lines.length).filter fun i => p lines[σ i]).map σ).Pairwise
      (· < ·) := by
    rw [List.pairwise_map]
    apply (hplaces.filter _).imp_of_mem
    intro i j hi hj hij
    exact h i j hij (List.mem_filter.1 hi).2 (List.mem_filter.1 hj).2
  -- Both lists of places increase, and they have the same elements.
  apply hperm.eq_of_pairwise ?_ hmoved (hplaces.filter _)
  intro a b _ _ hab hba
  exact absurd hba (lt_asymm hab)

/-- Lines that keep their order among themselves are the same list after the others are left out.
-/
theorem filter_rearranged : (rearranged lines σ).filter p = lines.filter p := by
  have hlines : (List.finRange lines.length).map (fun i => lines[i]) = lines :=
    List.map_get_finRange lines
  have hrearranged : rearranged lines σ = (List.finRange lines.length).map fun i => lines[σ i] :=
    List.ofFn_eq_map
  calc (rearranged lines σ).filter p
      = (((List.finRange lines.length).filter fun i => p lines[σ i]).map σ).map
          fun i => lines[i] := by
        rw [hrearranged, List.filter_map, List.map_map]
        rfl
    -- The places that are left, taken in their new order, are these places in the old order.
    _ = ((List.finRange lines.length).map fun i => lines[i]).filter p := by
        rw [map_places_rearranged h, List.filter_map]
        rfl
    _ = lines.filter p := by rw [hlines]

end

end

/-! ## Lines that depend on each other -/

/-- The number that is spelled by the id of the symbol in a line. -/
def number? (line : Text) : Option Nat :=
  (Finding.ofLine line).symbol?.map fun s => digitsValue s.id

/-- Two lines yield symbols, and their ids spell the same number. -/
def SameNumber (a b : Text) : Prop := number? a ≠ none ∧ number? a = number? b
deriving Decidable

def yieldsTie (id line : Text) : Bool := (Finding.ofLine line).symbol?.any (Symbol.ties id)

/-- Two lines that yield ties of one id have ids of one number. -/
theorem sameNumber_of_yieldsTie {id a b : Text} (ha : yieldsTie id a = true)
    (hb : yieldsTie id b = true) : SameNumber a b := by
  obtain ⟨s, hs, hsid⟩ := (Option.any_eq_true _ _).1 ha
  obtain ⟨t, ht, htid⟩ := (Option.any_eq_true _ _).1 hb
  have hs' := Finding.isCanonical_of_ofLine hs
  have ht' := Finding.isCanonical_of_ofLine ht
  have hties := Symbol.compareIds_of_ties hsid htid
  rw [compareIds_of_digits hs'.id_ne_nil ht'.id_ne_nil hs'.id_digits ht'.id_digits] at hties
  have hvalue : digitsValue s.id = digitsValue t.id := compare_eq_iff_eq.1 hties
  have hnumber : number? a = some (digitsValue s.id) := by rw [number?, hs, Option.map_some]
  have hother : number? b = some (digitsValue t.id) := by rw [number?, ht, Option.map_some]
  rw [SameNumber, hnumber, hother, hvalue]
  exact ⟨nofun, rfl⟩

/-- The ties among the symbols come from the lines that yield ties. -/
theorem filter_ties_filterMap (id : Text) (lines : List Text) :
    (lines.filterMap fun line => (Finding.ofLine line).symbol?).filter (Symbol.ties id)
      = (lines.filter (yieldsTie id)).filterMap fun line => (Finding.ofLine line).symbol? := by
  rw [List.filter_filterMap, List.filterMap_filter]
  congr 1
  funext line
  unfold yieldsTie
  rcases (Finding.ofLine line).symbol? with _ | s
  · rfl
  · rfl

namespace Collection

/-- **The order of independent lines does not matter.** Whatever was collected before, if the
lines of a log are rearranged and any two that yield the same number keep their order, then
neither log fails, and closing gives the same symbols in the same order and the same counters
after either of them. -/
theorem close_rearranged (c : Collection) {lines : List Text}
    (hlines : ∀ line ∈ lines, line.OneLine) {σ : Equiv.Perm (Fin lines.length)}
    (hσ : ∀ i j, i < j → SameNumber lines[σ i] lines[σ j] → σ i < σ j) :
    let absorbed := c.absorb (.ofSource (.ofBytes (Utf8.encode (Text.ended lines))))
    let other := c.absorb (.ofSource (.ofBytes (Utf8.encode (Text.ended (rearranged lines σ)))))
    absorbed.2 = none ∧ other.2 = none ∧
      other.1.close.symbols = absorbed.1.close.symbols ∧
      other.1.close.tally = absorbed.1.close.tally := by
  intro absorbed other
  have hperm : (rearranged lines σ).Perm lines := rearranged_perm
  have habsorbed : absorbed = (c.addLines lines, none) := by
    show c.absorb _ = _
    rw [absorb_encode, Text.lines_ended hlines]
  have hother : other = (c.addLines (rearranged lines σ), none) := by
    show c.absorb _ = _
    rw [absorb_encode, Text.lines_ended fun line hline => hlines line (hperm.subset hline)]
  have hsymbols : catalogue other.1.symbols = catalogue absorbed.1.symbols := by
    apply catalogue_congr
    intro id
    -- Ties of one id have the same number, so the lines that yield them stay in order.
    have hkept : (rearranged lines σ).filter (yieldsTie id) = lines.filter (yieldsTie id) := by
      apply filter_rearranged
      intro i j hij hi hj
      exact hσ i j hij (sameNumber_of_yieldsTie hi hj)
    rw [hother, habsorbed, symbols_addLines, symbols_addLines, List.filter_append,
      List.filter_append, filter_ties_filterMap, filter_ties_filterMap, hkept]
  have hlength : other.1.symbols.length = absorbed.1.symbols.length := by
    rw [hother, habsorbed, symbols_addLines, symbols_addLines, List.length_append,
      List.length_append, (hperm.filterMap _).length_eq]
  have htally : other.1.tally = absorbed.1.tally := by
    rw [hother, habsorbed, tally_addLines, tally_addLines]
    exact Tally.foldl_record_perm c.tally hperm
  refine ⟨by rw [habsorbed], by rw [hother], hsymbols, ?_⟩
  unfold close
  rw [htally, hlength, hsymbols]

/-- Two spellings of a number, and lines that do not depend on them. -/
def tiedLines : List Text :=
  ["Symbol ID: 7 Name: a Desc:".toList, "Symbol ID: none".toList,
    "Symbol ID: 007 Name: b Desc:".toList, "Symbol ID: 3 Name: c Desc:".toList,
    "Symbol ID: 7 Name: d Desc:".toList]

def movedPlaces : Equiv.Perm (Fin 5) where
  toFun := ![3, 0, 2, 1, 4]
  invFun := ![1, 3, 2, 0, 4]
  left_inv := by decide
  right_inv := by decide

/-- Lines with tied ids are moved past others and keep their order. -/
theorem close_rearranged_tiedLines :
    let absorbed := empty.absorb (.ofSource (.ofBytes (Utf8.encode (Text.ended tiedLines))))
    let other := empty.absorb (.ofSource (.ofBytes (Utf8.encode
      (Text.ended (rearranged tiedLines movedPlaces)))))
    absorbed.1.close.symbols.map Symbol.id = ["3".toList, "7".toList, "007".toList] ∧
      other.1.close.symbols = absorbed.1.close.symbols := by
  intro absorbed other
  have hids : (empty.absorb (.ofSource (.ofBytes (Utf8.encode
      (Text.ended tiedLines))))).1.close.symbols.map Symbol.id
        = ["3".toList, "7".toList, "007".toList] := by cbv
  have hlines : ∀ line ∈ tiedLines, '\r' ∉ line ∧ '\n' ∉ line := by decide
  have horder : ∀ i j, i < j → SameNumber tiedLines[movedPlaces i] tiedLines[movedPlaces j] →
      movedPlaces i < movedPlaces j := by decide +kernel
  exact ⟨hids, (close_rearranged empty hlines horder).2.2.1⟩

end Collection

end SymbolLog
