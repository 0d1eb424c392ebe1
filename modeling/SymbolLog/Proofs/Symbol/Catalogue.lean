/-
What the catalogue keeps.

Symbols are put one after the other into those kept so far. `KeptFrom` is what holds
between the two lists after any number of steps: no id is kept twice, nothing is kept
that was not there, and nothing grows. The sort that follows moves symbols and does
no more, so the catalogue inherits all three and gains the order of the ids.

No id is lost either, so the length of the catalogue is the number of different ids
(`length_catalogue`).
-/
import SymbolLog.Symbol.Catalogue
import SymbolLog.Proofs.Symbol.Order

set_option autoImplicit false

namespace SymbolLog

/-- Puts symbols one after the other into those kept so far. -/
def putAll (kept symbols : List Symbol) : List Symbol :=
  symbols.foldl (fun kept s => putSymbol s kept) kept

/-- Keeping the latest symbols is a fold that begins with nothing, so that laws about it are
proved from any beginning. -/
theorem latestById_eq (symbols : List Symbol) : latestById symbols = putAll [] symbols := rfl

theorem putAll_cons (kept : List Symbol) (s : Symbol) (symbols : List Symbol) :
    putAll kept (s :: symbols) = putAll (putSymbol s kept) symbols := rfl

theorem putAll_append (kept first second : List Symbol) :
    putAll kept (first ++ second) = putAll (putAll kept first) second := List.foldl_append

/-- Some symbols are what is kept of others. -/
structure KeptFrom (kept seen : List Symbol) : Prop where
  nodup : (kept.map Symbol.id).Nodup
  mem : ∀ s ∈ kept, s ∈ seen
  length : kept.length ≤ seen.length

theorem mem_of_mem_putSymbol {s t : Symbol} {kept : List Symbol} (h : t ∈ putSymbol s kept) :
    t = s ∨ t ∈ kept := by
  induction kept with
  | nil => exact .inl (List.mem_singleton.1 h)
  | cons u rest ih =>
    rw [putSymbol] at h
    split at h
    · obtain rfl | hrest := List.mem_cons.1 h
      · exact .inl rfl
      · exact .inr (List.mem_cons_of_mem u hrest)
    · obtain rfl | hrest := List.mem_cons.1 h
      · exact .inr List.mem_cons_self
      · exact (ih hrest).imp id (List.mem_cons_of_mem u)

theorem length_putSymbol_le (s : Symbol) (kept : List Symbol) :
    (putSymbol s kept).length ≤ kept.length + 1 := by
  have hids := congrArg List.length (map_id_putSymbol s kept)
  rw [List.length_map] at hids
  rw [hids]
  split
  · rw [List.length_map]
    omega
  · rw [List.length_append, List.length_map]
    exact Nat.le_refl _

/-- **One step of the fold.** A symbol that is put keeps the ids apart and comes from what has
been seen. -/
theorem KeptFrom.putSymbol {kept seen : List Symbol} (h : KeptFrom kept seen) (s : Symbol) :
    KeptFrom (putSymbol s kept) (seen ++ [s]) where
  nodup := by
    rw [map_id_putSymbol]
    split
    · exact h.nodup
    next hnew =>
      -- The id of a symbol that is put at the end is new.
      rw [List.nodup_append]
      refine ⟨h.nodup, List.nodup_cons.2 ⟨List.not_mem_nil, List.nodup_nil⟩, ?_⟩
      rintro a ha b hb rfl
      rw [List.mem_singleton.1 hb] at ha
      exact hnew ha
  mem := by
    intro t ht
    obtain rfl | hkept := mem_of_mem_putSymbol ht
    · exact List.mem_append_right _ List.mem_cons_self
    · exact List.mem_append_left _ (h.mem t hkept)
  length := by
    have hstep := length_putSymbol_le s kept
    have hlength := h.length
    rw [List.length_append, List.length_singleton]
    omega

/-- So does the whole fold, step by step. -/
theorem KeptFrom.putAll {kept seen : List Symbol} (h : KeptFrom kept seen)
    (symbols : List Symbol) : KeptFrom (putAll kept symbols) (seen ++ symbols) := by
  -- One symbol after the other; those seen grow at their end.
  induction symbols generalizing kept seen with
  | nil => rwa [List.append_nil]
  | cons s symbols ih =>
    have hstep := ih (h.putSymbol s)
    rwa [List.append_assoc, List.singleton_append] at hstep

theorem keptFrom_latestById (symbols : List Symbol) : KeptFrom (latestById symbols) symbols := by
  have hnil : KeptFrom [] [] := ⟨List.nodup_nil, nofun, Nat.le_refl 0⟩
  exact hnil.putAll symbols

/-- Sorting has no influence on what is kept. -/
theorem keptFrom_catalogue (symbols : List Symbol) : KeptFrom (catalogue symbols) symbols := by
  -- Sorting permutes, and nothing in `KeptFrom` is about the order.
  have hperm : (catalogue symbols).Perm (latestById symbols) := List.mergeSort_perm _ _
  have hkept := keptFrom_latestById symbols
  exact
    { nodup := (hperm.map Symbol.id).nodup_iff.2 hkept.nodup
      mem := fun s hs => hkept.mem s (hperm.mem_iff.1 hs)
      length := hperm.length_eq ▸ hkept.length }

theorem mem_map_id_putSymbol {s : Symbol} {kept : List Symbol} {id : Text} :
    id ∈ (putSymbol s kept).map Symbol.id ↔ id ∈ kept.map Symbol.id ∨ id = s.id := by
  rw [map_id_putSymbol]
  split
  · next hold =>
    -- The id that is put is among those kept already.
    constructor
    · intro h
      exact .inl h
    · rintro (h | rfl)
      · exact h
      · exact hold
  · rw [List.mem_append, List.mem_singleton]

/-- The ids are those that were there and those of all symbols, whichever of these are kept. -/
theorem mem_map_id_putAll {kept symbols : List Symbol} {id : Text} :
    id ∈ (putAll kept symbols).map Symbol.id
      ↔ id ∈ kept.map Symbol.id ∨ id ∈ symbols.map Symbol.id := by
  induction symbols generalizing kept with
  | nil => simp [putAll]
  | cons s symbols ih =>
    rw [putAll_cons, ih, mem_map_id_putSymbol, List.map_cons, List.mem_cons, or_assoc]

theorem mem_map_id_latestById {symbols : List Symbol} {id : Text} :
    id ∈ (latestById symbols).map Symbol.id ↔ id ∈ symbols.map Symbol.id := by
  rw [latestById_eq, mem_map_id_putAll]
  simp

/-- The catalogue is as long as there are different ids. -/
theorem length_catalogue (symbols : List Symbol) :
    (catalogue symbols).length = (symbols.map Symbol.id).toFinset.card := by
  have hperm : (catalogue symbols).Perm (latestById symbols) := List.mergeSort_perm _ _
  have hids : ((catalogue symbols).map Symbol.id).toFinset = (symbols.map Symbol.id).toFinset := by
    ext id
    rw [List.mem_toFinset, List.mem_toFinset, (hperm.map Symbol.id).mem_iff,
      mem_map_id_latestById]
  have hnodup := (keptFrom_catalogue symbols).nodup
  rw [← hids, List.toFinset_card_of_nodup hnodup, List.length_map]

theorem sorted_catalogue (symbols : List Symbol) :
    (catalogue symbols).Pairwise fun a b => a.notAfter b = true :=
  List.pairwise_mergeSort Symbol.notAfter_trans Symbol.notAfter_total _

/-! ## The catalogue of a catalogue -/

theorem putSymbol_of_not_mem {s : Symbol} {kept : List Symbol}
    (h : s.id ∉ kept.map Symbol.id) : putSymbol s kept = kept ++ [s] := by
  induction kept with
  | nil => rfl
  | cons t rest ih =>
    rw [List.map_cons, List.mem_cons, not_or] at h
    rw [putSymbol, if_neg (Ne.symm h.1), ih h.2, List.cons_append]

/-- Where no id is repeated, every symbol is put at the end. -/
theorem putAll_of_nodup {symbols kept : List Symbol}
    (h : ((kept ++ symbols).map Symbol.id).Nodup) : putAll kept symbols = kept ++ symbols := by
  induction symbols generalizing kept with
  | nil => exact (List.append_nil kept).symm
  | cons s symbols ih =>
    have hnew : s.id ∉ kept.map Symbol.id := by
      intro hold
      rw [List.map_append, List.nodup_append] at h
      exact h.2.2 s.id hold s.id List.mem_cons_self rfl
    rw [List.append_cons] at h ⊢
    rw [putAll_cons, putSymbol_of_not_mem hnew, ih h]

/-- Where no id comes again, all symbols are kept and stay where they are. -/
theorem latestById_of_nodup {symbols : List Symbol} (h : (symbols.map Symbol.id).Nodup) :
    latestById symbols = symbols := by
  have hnil : (([] ++ symbols).map Symbol.id).Nodup := h
  exact putAll_of_nodup hnil

/-- Nothing changes when a catalogue is made of a catalogue: its ids are different, and it is
sorted. -/
theorem catalogue_catalogue (symbols : List Symbol) :
    catalogue (catalogue symbols) = catalogue symbols := by
  have hlatest := latestById_of_nodup (keptFrom_catalogue symbols).nodup
  rw [catalogue, hlatest]
  exact List.mergeSort_of_pairwise (sorted_catalogue symbols)

end SymbolLog
