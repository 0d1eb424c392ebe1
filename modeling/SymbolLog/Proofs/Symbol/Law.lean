/-
The law of the catalogue.

A catalogue is made step by step: symbols are put one after the other into those kept so far, and
what is kept is sorted. Here it is said what a catalogue is, without the steps. Three notions of
place meet in it. Which symbol stands for an id is decided by its last occurrence; how the symbols
are sorted is decided by the ids as numbers; and symbols whose ids are tied, such as `7` and `007`,
are in the order of their first occurrences. Ids are equal as texts and tied as numbers, so a tie
may hold several symbols of the catalogue but never two of one id.

The law admits one list for each list of symbols. Its first half fixes which symbols there are
(`IsCatalogueOf.perm`), and its second half is a strict order on them, so any two lists that follow
it are permutations of each other and sorted alike.
-/
import SymbolLog.Proofs.Symbol.Ties

set_option autoImplicit false

namespace SymbolLog

/-! ## Last and first occurrences -/

/-- A symbol is the last one of its id in a list. -/
def LastOfId (symbols : List Symbol) (s : Symbol) : Prop :=
  ∃ before after, symbols = before ++ s :: after ∧ s.id ∉ after.map Symbol.id

/-- Where an id stands first. -/
def firstPlace (symbols : List Symbol) (id : Text) : Nat := (symbols.map Symbol.id).idxOf id

variable {symbols : List Symbol} {s t : Symbol}

theorem LastOfId.mem (h : LastOfId symbols s) : s ∈ symbols := by
  obtain ⟨before, after, rfl, -⟩ := h
  simp

/-- One more symbol is the last with its id, and takes nothing from those with other ids. -/
theorem lastOfId_concat :
    LastOfId (symbols ++ [s]) t ↔ t = s ∨ LastOfId symbols t ∧ t.id ≠ s.id := by
  constructor
  · rintro ⟨before, after, hsplit, hlast⟩
    -- Nothing comes behind the new symbol, so either the split is at the end or the end of the
    -- split is that symbol.
    obtain rfl | ⟨after, last, rfl⟩ := List.eq_nil_or_concat after
    · left
      have hend := congrArg List.getLast? hsplit
      simp only [List.getLast?_append, List.getLast?_singleton, Option.some_or,
        Option.some.injEq] at hend
      exact hend.symm
    · right
      rw [List.concat_eq_append, ← List.cons_append, ← List.append_assoc] at hsplit
      obtain ⟨rfl, hs⟩ := List.append_inj' hsplit rfl
      simp only [List.cons.injEq, and_true] at hs
      simp only [List.concat_eq_append, List.map_append, List.map_cons, List.map_nil,
        List.mem_append, List.mem_singleton, not_or] at hlast
      refine ⟨⟨before, after, rfl, hlast.1⟩, ?_⟩
      rw [hs]
      exact hlast.2
  · rintro (rfl | ⟨⟨before, after, rfl, hlast⟩, hne⟩)
    · exact ⟨symbols, [], rfl, by simp⟩
    · refine ⟨before, after ++ [s], by simp, ?_⟩
      simp [hlast, hne]

theorem firstPlace_concat_of_mem {id : Text} (h : id ∈ symbols.map Symbol.id) :
    firstPlace (symbols ++ [s]) id = firstPlace symbols id := by
  unfold firstPlace
  rw [List.map_append, List.idxOf_append_of_mem h]

theorem firstPlace_concat_self (h : s.id ∉ symbols.map Symbol.id) :
    firstPlace (symbols ++ [s]) s.id = symbols.length := by
  unfold firstPlace
  rw [List.map_append, List.idxOf_append_of_notMem h]
  simp

theorem firstPlace_lt {id : Text} (h : id ∈ symbols.map Symbol.id) :
    firstPlace symbols id < symbols.length := by
  have hlt := List.idxOf_lt_length_of_mem h
  rwa [List.length_map] at hlt

/-! ## What is kept -/

/-- One more symbol is one more step. The induction is from the right because that step is the
last. -/
theorem latestById_concat (symbols : List Symbol) (s : Symbol) :
    latestById (symbols ++ [s]) = putSymbol s (latestById symbols) := by
  simp [latestById]

/-- Putting a symbol replaces the one of its id and touches no other. -/
theorem mem_putSymbol_iff {kept : List Symbol} (h : (kept.map Symbol.id).Nodup) :
    t ∈ putSymbol s kept ↔ t = s ∨ t ∈ kept ∧ t.id ≠ s.id := by
  induction kept with
  | nil => simp [putSymbol]
  | cons u rest ih =>
    simp only [List.map_cons, List.nodup_cons] at h
    -- The symbol replaces the first with its id, and there is no second one.
    by_cases hu : u.id = s.id
    · have hrest : ∀ x ∈ rest, x.id ≠ s.id := by
        intro x hx hid
        apply h.1
        rw [hu, ← hid]
        exact List.mem_map_of_mem hx
      simp only [putSymbol, hu, if_true, List.mem_cons]
      constructor
      · rintro (rfl | ht)
        · exact .inl rfl
        · exact .inr ⟨.inr ht, hrest t ht⟩
      · rintro (rfl | ⟨rfl | ht, hne⟩)
        · exact .inl rfl
        · exact absurd hu hne
        · exact .inr ht
    · simp only [putSymbol, hu, if_false, List.mem_cons, ih h.2]
      constructor
      · rintro (rfl | rfl | ⟨ht, hne⟩)
        · exact .inr ⟨.inl rfl, hu⟩
        · exact .inl rfl
        · exact .inr ⟨.inr ht, hne⟩
      · rintro (rfl | ⟨rfl | ht, hne⟩)
        · exact .inr (.inl rfl)
        · exact .inl rfl
        · exact .inr (.inr ⟨ht, hne⟩)

/-- What is kept are the last symbols of the ids. -/
theorem mem_latestById_iff : s ∈ latestById symbols ↔ LastOfId symbols s := by
  induction symbols using List.reverseRecOn with
  | nil =>
    constructor
    · intro h
      simp [latestById] at h
    · intro h
      exact absurd h.mem (by simp)
  | append_singleton symbols t ih =>
    rw [latestById_concat, mem_putSymbol_iff (keptFrom_latestById symbols).nodup, lastOfId_concat,
      ih]

/-- They are kept in the order in which their ids first occur. -/
theorem pairwise_latestById :
    (latestById symbols).Pairwise fun a b => firstPlace symbols a.id < firstPlace symbols b.id := by
  suffices h : ((latestById symbols).map Symbol.id).Pairwise fun a b =>
      firstPlace symbols a < firstPlace symbols b by
    simpa [List.pairwise_map] using h
  induction symbols using List.reverseRecOn with
  | nil => simp [latestById]
  | append_singleton symbols s ih =>
    -- No id that has occurred moves when one more symbol comes.
    have hold : ((latestById symbols).map Symbol.id).Pairwise fun a b =>
        firstPlace (symbols ++ [s]) a < firstPlace (symbols ++ [s]) b := by
      refine ih.imp_of_mem ?_
      intro a b ha hb hab
      rw [mem_map_id_latestById] at ha hb
      rwa [firstPlace_concat_of_mem ha, firstPlace_concat_of_mem hb]
    rw [latestById_concat, map_id_putSymbol]
    split
    · exact hold
    next hnew =>
      rw [mem_map_id_latestById] at hnew
      rw [List.pairwise_append]
      refine ⟨hold, List.pairwise_singleton _ _, ?_⟩
      intro a ha b hb
      rw [mem_map_id_latestById] at ha
      obtain rfl := List.mem_singleton.1 hb
      rw [firstPlace_concat_of_mem ha, firstPlace_concat_self hnew]
      exact firstPlace_lt ha

/-- An id has one last symbol. -/
theorem LastOfId.eq (hs : LastOfId symbols s) (ht : LastOfId symbols t) (hid : s.id = t.id) :
    s = t := by
  rw [← mem_latestById_iff] at hs ht
  exact List.inj_on_of_nodup_map (keptFrom_latestById symbols).nodup hs ht hid

/-! ## The law -/

/-- The law that the catalogue of some symbols follows. -/
structure IsCatalogueOf (symbols listed : List Symbol) : Prop where
  nodup : (listed.map Symbol.id).Nodup
  ids : ∀ id, id ∈ listed.map Symbol.id ↔ id ∈ symbols.map Symbol.id
  last : ∀ s ∈ listed, LastOfId symbols s
  sorted : listed.Pairwise fun a b => compareIds a.id b.id ≠ .gt
  ties : listed.Pairwise fun a b =>
    compareIds a.id b.id = .eq → firstPlace symbols a.id < firstPlace symbols b.id

theorem catalogue_perm (symbols : List Symbol) : (catalogue symbols).Perm (latestById symbols) :=
  List.mergeSort_perm _ _

/-- The sort leaves tied symbols in the order in which their ids first occur. -/
theorem pairwise_ties_catalogue :
    (catalogue symbols).Pairwise fun a b =>
      compareIds a.id b.id = .eq → firstPlace symbols a.id < firstPlace symbols b.id := by
  rw [List.pairwise_iff_forall_sublist]
  intro a b hsub htied
  have ha : a.ties b.id = true := Symbol.ties_iff.2 htied
  have hties : ∀ x y : Symbol, x.ties b.id = true → y.ties b.id = true → x.notAfter y = true :=
    fun x y => Symbol.notAfter_of_ties
  -- Both are in one tie, and a tie is not touched by the sort.
  have hfilter : List.Sublist [a, b] ((catalogue symbols).filter (Symbol.ties b.id)) := by
    have h := hsub.filter (Symbol.ties b.id)
    simpa [ha, b.ties_self] using h
  rw [catalogue, filter_mergeSort hties] at hfilter
  have hkept : List.Sublist [a, b] (latestById symbols) := hfilter.trans List.filter_sublist
  exact List.pairwise_iff_forall_sublist.1 pairwise_latestById hkept

theorem isCatalogueOf_catalogue (symbols : List Symbol) :
    IsCatalogueOf symbols (catalogue symbols) where
  nodup := (keptFrom_catalogue symbols).nodup
  ids := by
    intro id
    rw [((catalogue_perm symbols).map Symbol.id).mem_iff, mem_map_id_latestById]
  last := by
    intro s hs
    exact mem_latestById_iff.1 ((catalogue_perm symbols).mem_iff.1 hs)
  sorted := by
    refine (sorted_catalogue symbols).imp ?_
    intro a b hab
    simpa [Symbol.notAfter] using hab
  ties := pairwise_ties_catalogue

namespace IsCatalogueOf

variable {listed other : List Symbol}

theorem mem_iff (h : IsCatalogueOf symbols listed) : s ∈ listed ↔ LastOfId symbols s := by
  constructor
  · exact h.last s
  · intro hs
    have hid : s.id ∈ listed.map Symbol.id := (h.ids s.id).2 (List.mem_map_of_mem hs.mem)
    obtain ⟨t, ht, htid⟩ := List.mem_map.1 hid
    rwa [← LastOfId.eq (h.last t ht) hs htid]

/-- Lists that follow the law have the same symbols. -/
theorem perm (h : IsCatalogueOf symbols listed) (hother : IsCatalogueOf symbols other) :
    listed.Perm other := by
  rw [List.perm_ext_iff_of_nodup (List.Nodup.of_map _ h.nodup) (List.Nodup.of_map _ hother.nodup)]
  intro s
  rw [h.mem_iff, hother.mem_iff]

/-- The law leaves no choice: which symbols are listed is settled, the order between numbers by
sorting, and the order within a tie by the first places. -/
theorem eq (h : IsCatalogueOf symbols listed) (hother : IsCatalogueOf symbols other) :
    listed = other := by
  refine List.Perm.eq_of_pairwise ?_ (h.sorted.and h.ties) (hother.sorted.and hother.ties)
    (h.perm hother)
  rintro a b - - ⟨hab, htie⟩ ⟨hba, htie'⟩
  -- Neither is after the other, so they are tied, and then each would be first.
  cases hcompare : compareIds a.id b.id with
  | lt => exact absurd (Std.OrientedCmp.gt_of_lt hcompare) hba
  | gt => exact absurd hcompare hab
  | eq =>
    have hlt := htie hcompare
    have hgt := htie' (Std.OrientedCmp.eq_symm hcompare)
    omega

end IsCatalogueOf

/-- **The law defines the catalogue.** The ids of the catalogue are different texts and are those
that occur; each of its symbols is the last one of its id; no symbol has a greater id than one
behind it; and of two whose ids are tied, the one whose id occurs first comes first. No other
list is like that. -/
theorem eq_catalogue_iff {listed : List Symbol} :
    listed = catalogue symbols ↔ IsCatalogueOf symbols listed := by
  constructor
  · rintro rfl
    exact isCatalogueOf_catalogue symbols
  · intro h
    exact h.eq (isCatalogueOf_catalogue symbols)

end SymbolLog
