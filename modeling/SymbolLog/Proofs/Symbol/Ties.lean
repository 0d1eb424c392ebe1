/-
Ids that are equal as numbers.

`7` and `007` are two ids, and as far as the order of ids goes they are the same. The sort
leaves such ids in the order in which it finds them, which is the order in which they first
appeared. So the catalogue hides something of the order of the symbols and shows something of
it, and this module says what it shows: for every id the order among the symbols whose ids are
tied with it, and nothing else (`catalogue_congr`).

That holds of each step. Keeping the last symbol of an id can be done for the symbols of a tie
apart from all others, since replacing a symbol moves none (`filter_latestById`). A stable sort
does not move symbols of one tie past each other (`filter_mergeSort`). And a sorted list is put
together from its ties in one way only (`eq_of_filter_ties`).
-/
import SymbolLog.Proofs.Symbol.Catalogue
import Mathlib

set_option autoImplicit false

namespace SymbolLog

/-- The id of a symbol is tied with an id. -/
def Symbol.ties (id : Text) (s : Symbol) : Bool := compareIds s.id id = .eq

namespace Symbol

variable {a b : Symbol} {id : Text}

theorem ties_iff : a.ties id = true ↔ compareIds a.id id = .eq := decide_eq_true_iff

theorem ties_self (s : Symbol) : s.ties s.id = true := ties_iff.2 Std.ReflCmp.compare_self

theorem compareIds_of_ties (ha : a.ties id = true) (hb : b.ties id = true) :
    compareIds a.id b.id = .eq := by
  rw [ties_iff] at ha hb
  exact Std.TransCmp.eq_trans ha (Std.OrientedCmp.eq_symm hb)

/-- Sorting does not move ties past each other, in either direction. -/
theorem notAfter_of_ties (ha : a.ties id = true) (hb : b.ties id = true) :
    a.notAfter b = true := by
  rw [notAfter_iff, compareIds_of_ties ha hb]
  rfl

/-- Symbols of which neither comes after the other tie. This is what makes sorted lists with the
same ties equal. -/
theorem ties_of_notAfter (hab : a.notAfter b = true) (hba : b.notAfter a = true) :
    b.ties a.id = true := by
  rw [notAfter_iff] at hab hba
  exact ties_iff.2 (Std.OrientedCmp.isLE_antisymm hba hab)

end Symbol

/-! ## Some of the symbols apart from the others -/

section
variable (p : Text → Bool)

/-- What is put aside by the id may be put aside before or after a symbol is put. -/
theorem filter_putSymbol (s : Symbol) (kept : List Symbol) :
    (putSymbol s kept).filter (fun t => p t.id)
      = if p s.id then putSymbol s (kept.filter fun t => p t.id)
        else kept.filter fun t => p t.id := by
  induction kept with
  | nil => rw [putSymbol, List.filter_cons, List.filter_nil, putSymbol]
  | cons t rest ih =>
    rw [putSymbol]
    by_cases hid : t.id = s.id
    · -- The symbol that is replaced is put aside exactly if the new one is.
      rw [if_pos hid, List.filter_cons, List.filter_cons, hid]
      by_cases hs : p s.id = true
      · rw [if_pos hs, if_pos hs, if_pos hs, putSymbol, if_pos hid]
      · rw [if_neg hs, if_neg hs, if_neg hs]
    · -- Another symbol stays, whether it is put aside or not, and the place is further on.
      rw [if_neg hid, List.filter_cons, List.filter_cons, ih]
      by_cases ht : p t.id = true
      · rw [if_pos ht, if_pos ht, putSymbol, if_neg hid]
        split
        · rfl
        · rfl
      · rw [if_neg ht, if_neg ht]

theorem filter_putAll (kept symbols : List Symbol) :
    (putAll kept symbols).filter (fun s => p s.id)
      = putAll (kept.filter fun s => p s.id) (symbols.filter fun s => p s.id) := by
  induction symbols generalizing kept with
  | nil => rfl
  | cons s symbols ih =>
    rw [putAll_cons, ih, filter_putSymbol, List.filter_cons]
    by_cases hs : p s.id = true
    · rw [if_pos hs, if_pos hs, putAll_cons]
    · rw [if_neg hs, if_neg hs]

/-- The symbols of some ids are kept as if there were no others. -/
theorem filter_latestById (symbols : List Symbol) :
    (latestById symbols).filter (fun s => p s.id)
      = latestById (symbols.filter fun s => p s.id) :=
  filter_putAll p [] symbols

end

/-- The sort does not move symbols past each other that may stand in either order. -/
theorem filter_mergeSort {q : Symbol → Bool}
    (hq : ∀ a b, q a = true → q b = true → a.notAfter b = true) (symbols : List Symbol) :
    (symbols.mergeSort Symbol.notAfter).filter q = symbols.filter q := by
  have hsorted : (symbols.filter q).Pairwise fun a b => a.notAfter b = true := by
    apply List.pairwise_of_forall_mem_list
    intro a ha b hb
    exact hq a b (List.mem_filter.1 ha).2 (List.mem_filter.1 hb).2
  have hsub : List.Sublist (symbols.filter q) (symbols.mergeSort Symbol.notAfter) :=
    List.sublist_mergeSort Symbol.notAfter_trans Symbol.notAfter_total hsorted List.filter_sublist
  have hsub' : List.Sublist (symbols.filter q) ((symbols.mergeSort Symbol.notAfter).filter q) := by
    have h := hsub.filter q
    simpa only [List.filter_filter, Bool.and_self] using h
  have hperm := (List.mergeSort_perm symbols Symbol.notAfter).filter q
  exact (hsub'.eq_of_length hperm.length_eq.symm).symm

/-! ## Sorted lists by their ties -/

/-- Lists with the same ties have the same members, since each member is among its own ties. -/
theorem mem_of_filter_ties {A B : List Symbol} {s : Symbol}
    (h : ∀ id, A.filter (Symbol.ties id) = B.filter (Symbol.ties id)) (hs : s ∈ A) : s ∈ B := by
  have hmem : s ∈ A.filter (Symbol.ties s.id) := List.mem_filter.2 ⟨hs, s.ties_self⟩
  rw [h] at hmem
  exact (List.mem_filter.1 hmem).1

theorem notAfter_of_mem_cons {a b : Symbol} {A : List Symbol}
    (hA : (a :: A).Pairwise fun a b => a.notAfter b = true) (hb : b ∈ a :: A) :
    a.notAfter b = true := by
  rcases List.mem_cons.1 hb with rfl | hb
  · exact Symbol.notAfter_of_ties b.ties_self b.ties_self
  · exact List.rel_of_pairwise_cons hA hb

/-- Sorted lists with the same ties are the same. -/
theorem eq_of_filter_ties {A B : List Symbol}
    (hA : A.Pairwise fun a b => a.notAfter b = true)
    (hB : B.Pairwise fun a b => a.notAfter b = true)
    (h : ∀ id, A.filter (Symbol.ties id) = B.filter (Symbol.ties id)) : A = B := by
  induction A generalizing B with
  | nil =>
    symm
    apply List.eq_nil_iff_forall_not_mem.2
    intro b hb
    exact List.not_mem_nil (mem_of_filter_ties (fun id => (h id).symm) hb)
  | cons a A ih =>
    have ha : a ∈ B := mem_of_filter_ties h List.mem_cons_self
    rcases B with _ | ⟨b, B⟩
    · exact absurd ha List.not_mem_nil
    have hb : b ∈ a :: A := mem_of_filter_ties (fun id => (h id).symm) List.mem_cons_self
    -- Each of the two first symbols stands in the other list, so neither is after the other.
    have htie : b.ties a.id = true :=
      Symbol.ties_of_notAfter (notAfter_of_mem_cons hA hb) (notAfter_of_mem_cons hB ha)
    have hfirst := h a.id
    rw [List.filter_cons_of_pos a.ties_self, List.filter_cons_of_pos htie] at hfirst
    obtain ⟨rfl, -⟩ := List.cons.inj hfirst
    have hrest : ∀ id, A.filter (Symbol.ties id) = B.filter (Symbol.ties id) := by
      intro id
      have hid := h id
      rw [List.filter_cons, List.filter_cons] at hid
      by_cases ht : a.ties id = true
      · rw [if_pos ht, if_pos ht] at hid
        exact (List.cons.inj hid).2
      · rwa [if_neg ht, if_neg ht] at hid
    rw [ih hA.of_cons hB.of_cons hrest]

/-- Sorting is stable, so the ties of a catalogue stand as they were kept. -/
theorem filter_catalogue (symbols : List Symbol) (id : Text) :
    (catalogue symbols).filter (Symbol.ties id)
      = latestById (symbols.filter (Symbol.ties id)) := by
  have hties : ∀ a b : Symbol, a.ties id = true → b.ties id = true → a.notAfter b = true :=
    fun a b => Symbol.notAfter_of_ties
  rw [catalogue, filter_mergeSort hties]
  exact filter_latestById (fun other => compareIds other id = .eq) symbols

/-- The catalogue is known by what is kept of each tie. -/
theorem catalogue_eq_of_latestById {S T : List Symbol}
    (h : ∀ id, latestById (S.filter (Symbol.ties id)) = latestById (T.filter (Symbol.ties id))) :
    catalogue S = catalogue T := by
  apply eq_of_filter_ties (sorted_catalogue S) (sorted_catalogue T)
  intro id
  rw [filter_catalogue, filter_catalogue, h]

/-- **The catalogue depends on the order within each tie and on nothing else.** -/
theorem catalogue_congr {S T : List Symbol}
    (h : ∀ id, S.filter (Symbol.ties id) = T.filter (Symbol.ties id)) :
    catalogue S = catalogue T := by
  apply catalogue_eq_of_latestById
  intro id
  rw [h]

end SymbolLog
