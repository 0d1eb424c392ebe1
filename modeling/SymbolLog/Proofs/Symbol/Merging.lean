/-
Catalogues of parts make the catalogue of the whole.

Symbols that were collected in several places may be made into a catalogue in each of them, and
the catalogues may be put one after the other and made into one. Two things could go wrong. A
catalogue has dropped all but the last symbol of an id, and it has moved what it kept, so it
might be another symbol that comes last, and another one of several tied ids that comes first.

Neither happens, and the ties are why. A catalogue shows for each tie what is kept of that tie,
in the order in which the ids first occurred, and so it is enough to know that keeping can be
done in parts. It can, because putting symbols that were kept is putting the symbols from which
they were kept (`putAll_latestById`): what was dropped would have been replaced later,
and where it stood first its successor stands.
-/
import SymbolLog.Proofs.Symbol.Law

set_option autoImplicit false

namespace SymbolLog

/-! ## Putting two symbols -/

section
variable {s t : Symbol}

/-- A symbol that is replaced at once leaves no trace. -/
theorem putSymbol_putSymbol_of_eq (h : t.id = s.id) (kept : List Symbol) :
    putSymbol s (putSymbol t kept) = putSymbol s kept := by
  induction kept with
  | nil => rw [putSymbol, putSymbol, putSymbol, if_pos h]
  | cons u rest ih =>
    rw [putSymbol]
    by_cases hu : u.id = t.id
    · rw [if_pos hu, putSymbol, if_pos h, putSymbol, if_pos (hu.trans h)]
    · have hus : ¬ u.id = s.id := fun hid => hu (hid.trans h.symm)
      rw [if_neg hu, putSymbol, if_neg hus, putSymbol, if_neg hus, ih]

/-- A symbol whose id has its place may be put before or after another one. -/
theorem putSymbol_comm {kept : List Symbol} (hne : t.id ≠ s.id)
    (hplace : s.id ∈ kept.map Symbol.id) :
    putSymbol s (putSymbol t kept) = putSymbol t (putSymbol s kept) := by
  induction kept with
  | nil => exact absurd hplace List.not_mem_nil
  | cons u rest ih =>
    rw [putSymbol, putSymbol]
    -- Two ids are concerned, and the symbol that stands here has one of them or neither.
    by_cases hut : u.id = t.id
    · have hus : ¬ u.id = s.id := fun hid => hne (hut.symm.trans hid)
      rw [if_pos hut, if_neg hus, putSymbol, if_neg hne, putSymbol, if_pos hut]
    · rw [if_neg hut]
      by_cases hus : u.id = s.id
      · rw [if_pos hus, putSymbol, if_pos hus, putSymbol, if_neg (Ne.symm hne)]
      · have hrest : s.id ∈ rest.map Symbol.id := by
          rw [List.map_cons, List.mem_cons] at hplace
          exact hplace.resolve_left (Ne.symm hus)
        rw [if_neg hus, putSymbol, if_neg hus, putSymbol, if_neg hut, ih hrest]

end

/-! ## Putting what was kept -/

/-- A symbol whose id does not come again may be put first or last, if it has a place already. -/
theorem putAll_putSymbol {s : Symbol} {symbols kept : List Symbol}
    (hnew : s.id ∉ symbols.map Symbol.id) (hplace : s.id ∈ kept.map Symbol.id) :
    putAll (putSymbol s kept) symbols = putSymbol s (putAll kept symbols) := by
  induction symbols generalizing kept with
  | nil => rfl
  | cons t symbols ih =>
    rw [List.map_cons, List.mem_cons, not_or] at hnew
    have hplace' : s.id ∈ (putSymbol t kept).map Symbol.id :=
      mem_map_id_putSymbol.2 (.inl hplace)
    rw [putAll_cons, putAll_cons, ← putSymbol_comm (Ne.symm hnew.1) hplace, ih hnew.2 hplace']

/-- A symbol that is put among some symbols comes after all of them when they are put. -/
theorem putAll_of_putSymbol {symbols : List Symbol} (h : (symbols.map Symbol.id).Nodup)
    (s : Symbol) (kept : List Symbol) :
    putAll kept (putSymbol s symbols) = putSymbol s (putAll kept symbols) := by
  induction symbols generalizing kept with
  | nil => rfl
  | cons t symbols ih =>
    obtain ⟨hnew, hrest⟩ := List.nodup_cons.1 h
    rw [putSymbol, putAll_cons]
    by_cases hid : t.id = s.id
    · -- The symbol takes the place of another one, and no later one has its id.
      have hplace : s.id ∈ (putSymbol t kept).map Symbol.id :=
        mem_map_id_putSymbol.2 (.inr hid.symm)
      rw [if_pos hid, putAll_cons, ← putSymbol_putSymbol_of_eq hid]
      exact putAll_putSymbol (hid ▸ hnew) hplace
    · rw [if_neg hid, putAll_cons]
      exact ih hrest _

/-- Putting the symbols that are kept of some is putting all of them. -/
theorem putAll_latestById (kept symbols : List Symbol) :
    putAll kept (latestById symbols) = putAll kept symbols := by
  -- From the end, where the last symbol is put among those that are kept of the others.
  induction symbols using List.reverseRecOn with
  | nil => rfl
  | append_singleton symbols s ih =>
    rw [latestById_concat, putAll_of_putSymbol (keptFrom_latestById symbols).nodup, ih,
      putAll_append]
    rfl

/-- Keeping the latest of two lists first and of the two together then is keeping the latest of
all. -/
theorem latestById_append (xs ys : List Symbol) :
    latestById (latestById xs ++ latestById ys) = latestById (xs ++ ys) := by
  rw [latestById_eq, putAll_append, putAll_latestById, putAll_latestById, ← putAll_append,
    latestById_eq]

/-! ## Catalogues of parts -/

/-- Catalogues may be made of parts and then of the catalogues of the parts. -/
theorem catalogue_append (xs ys : List Symbol) :
    catalogue (catalogue xs ++ catalogue ys) = catalogue (xs ++ ys) := by
  apply catalogue_eq_of_latestById
  intro id
  rw [List.filter_append, List.filter_append, filter_catalogue, filter_catalogue,
    latestById_append]

/-- **Catalogues of parts make the catalogue of the whole**, the order of tied ids included. So
a catalogue is its own catalogue, and it makes no difference whether the symbols collected so
far, or those collected later, are made into a catalogue before the end. -/
theorem catalogue_merged (xs ys : List Symbol) :
    catalogue (catalogue xs ++ catalogue ys) = catalogue (xs ++ ys) ∧
      catalogue (catalogue xs) = catalogue xs ∧
      catalogue (catalogue xs ++ ys) = catalogue (xs ++ ys) ∧
      catalogue (xs ++ catalogue ys) = catalogue (xs ++ ys) := by
  refine ⟨catalogue_append xs ys, catalogue_catalogue xs, ?_, ?_⟩
  · rw [← catalogue_append, catalogue_catalogue, catalogue_append]
  · rw [← catalogue_append, catalogue_catalogue, catalogue_append]

end SymbolLog
