/-
The events of a collection and its counters.

What is reported and what is counted are kept apart: a line is looked at once for the counters and
once for its event, and the ids that come again are reported by a walk of their own, while the
counter of the discarded symbols is a difference of two lengths. That they agree is an invariant of
single findings (`Told.record`), which every survey hands on to the next and which closing keeps
because every symbol is the first with its id or comes again (`length_repeats_add_card`).

Which ids are reported is said without the walk: those of the symbols before which their id stands
already (`repeatedIds_eq_repeats`). The walk goes from the left and forgets the symbols it has
passed, so the proofs go from the right, where the symbols before the last one are all there.
-/
import SymbolLog.Proofs.Collection.Accounting

set_option autoImplicit false

namespace SymbolLog

/-! ## Lines -/

namespace Event

/-- An event of a line that is blank or has no id mark. -/
def isNoSymbol : Event → Bool
  | .noSymbol _ => true
  | _ => false

/-- An event of a line with the mark and no symbol behind it. -/
def isUnmatched : Event → Bool
  | .unmatched _ _ => true
  | _ => false

/-- An event of a symbol that was discarded. -/
def isReplaced : Event → Bool
  | .replaced _ => true
  | _ => false

end Event

/-- Some events tell of as many lines and symbols as are counted. -/
structure Tally.Told (tally : Tally) (events : List Event) : Prop where
  unmatched : events.countP Event.isUnmatched = tally.unmatched
  noSymbol : events.countP Event.isNoSymbol = tally.blank + tally.unmarked
  replaced : events.countP Event.isReplaced = tally.discarded

/-- A line is counted as it is told of. -/
theorem Tally.Told.record {tally : Tally} {events : List Event} (h : tally.Told events)
    (number : Nat) (finding : Finding) :
    (tally.record finding).Told (events ++ (Event.ofFinding? number finding).toList) where
  unmatched := by
    rw [List.countP_append, h.unmatched]
    cases finding with
    | blank => rfl
    | unmarked packing => cases packing <;> rfl
    | unmatched packing => cases packing <;> rfl
    | symbol packing s => cases packing <;> rfl
  noSymbol := by
    rw [List.countP_append, h.noSymbol]
    cases finding with
    | blank => exact Nat.add_right_comm _ _ _
    | unmarked packing => cases packing <;> rfl
    | unmatched packing => cases packing <;> rfl
    | symbol packing s => cases packing <;> rfl
  replaced := by
    rw [List.countP_append, h.replaced]
    cases finding with
    | blank => rfl
    | unmarked packing => cases packing <;> rfl
    | unmatched packing => cases packing <;> rfl
    | symbol packing s => cases packing <;> rfl

namespace Collection

theorem told_empty : empty.tally.Told [] := ⟨rfl, rfl, rfl⟩

/-- Whatever a survey adds to the counters, it tells. -/
theorem told_add {c : Collection} {events : List Event} (h : c.tally.Told events)
    (survey : Survey) : (c.add survey).tally.Told (events ++ survey.events) := by
  obtain ⟨symbols, tally⟩ := c
  obtain ⟨findings, fault⟩ := survey
  simp only [add, Survey.events]
  -- The counters are folded along the findings, and the events grow with them.
  induction findings generalizing tally events with
  | nil => rwa [List.filterMap_nil, List.append_nil]
  | cons f findings ih =>
    have hrest := ih _ (h.record f.1 f.2)
    rw [List.append_assoc] at hrest
    rw [List.foldl_cons, List.filterMap_cons]
    cases hevent : Event.ofFinding? f.1 f.2 with
    | none => rwa [hevent] at hrest
    | some event => rwa [hevent] at hrest

/-- No symbol is discarded before a collection is closed. -/
theorem discarded_add (c : Collection) (survey : Survey) :
    (c.add survey).tally.discarded = c.tally.discarded := by
  obtain ⟨symbols, tally⟩ := c
  obtain ⟨findings, fault⟩ := survey
  simp only [add]
  induction findings generalizing tally with
  | nil => rfl
  | cons f findings ih => rw [List.foldl_cons, ih, (Tally.discarded_record tally f.2).1]

end Collection

/-- The events of the lines of a text, which are numbered from 1. -/
theorem Survey.events_findingsFrom (lines : List Text) (fault : Option Fault) :
    events ⟨findingsFrom 0 lines, fault⟩
      = (lines.zipIdx 1).filterMap fun line => Event.ofFinding? line.2 (Finding.ofLine line.1) := by
  rw [events, findingsFrom, List.filterMap_map]
  rfl

/-! ## Ids that come again -/

/-- The ids of the symbols before which their id stands already. -/
def repeats (symbols : List Symbol) : List Text :=
  (symbols.zipIdx.filter fun s => (symbols.take s.2).any fun t => t.id = s.1.id).map
    fun s => s.1.id

/-- The id of one more symbol is reported if it stands among the others. -/
theorem repeats_concat (symbols : List Symbol) (s : Symbol) :
    repeats (symbols ++ [s])
      = repeats symbols ++ if s.id ∈ symbols.map Symbol.id then [s.id] else [] := by
  -- What stands before an earlier symbol does not change by one at the end.
  have hbefore : (symbols.zipIdx.filter fun t =>
        ((symbols ++ [s]).take t.2).any fun u => u.id = t.1.id)
      = symbols.zipIdx.filter fun t => (symbols.take t.2).any fun u => u.id = t.1.id := by
    apply List.filter_congr
    intro t ht
    have hindex := (List.mem_zipIdx ht).2.1
    rw [List.take_append_of_le_length (by omega)]
  have hlast : (symbols.any fun t => t.id = s.id) = decide (s.id ∈ symbols.map Symbol.id) := by
    rw [Bool.eq_iff_iff]
    simp
  rw [repeats, List.zipIdx_append, List.filter_append, hbefore, List.map_append]
  congr 1
  rw [List.zipIdx_singleton, Nat.zero_add, List.filter_cons, List.filter_nil, List.take_left' rfl,
    hlast]
  by_cases h : s.id ∈ symbols.map Symbol.id
  · rw [decide_eq_true h, if_pos rfl, if_pos h]
    rfl
  · rw [decide_eq_false h, if_neg Bool.false_ne_true, if_neg h]
    rfl

theorem exists_of_mem_repeats {symbols : List Symbol} {id : Text} (h : id ∈ repeats symbols) :
    ∃ s ∈ symbols, s.id = id := by
  obtain ⟨⟨s, index⟩, hs, rfl⟩ := List.mem_map.1 h
  exact ⟨s, List.fst_mem_of_mem_zipIdx (List.mem_filter.1 hs).1, rfl⟩

/-- The walk comes to the last symbol with the ids of all others seen. The induction is on these,
with the ids that were seen before them. -/
theorem repeatedIds_concat (seen : List Text) (symbols : List Symbol) (s : Symbol) :
    repeatedIds seen (symbols ++ [s]) = repeatedIds seen symbols
      ++ if s.id ∈ seen ∨ s.id ∈ symbols.map Symbol.id then [s.id] else [] := by
  induction symbols generalizing seen with
  | nil => simp [repeatedIds]
  | cons t symbols ih =>
    rw [List.cons_append, repeatedIds, repeatedIds, List.map_cons]
    by_cases ht : t.id ∈ seen
    · -- The id of the first symbol is seen already, so it makes no difference.
      have hseen : s.id = t.id → s.id ∈ seen := fun heq => heq ▸ ht
      rw [if_pos ht, if_pos ht, ih, List.cons_append]
      have hiff : (s.id ∈ seen ∨ s.id ∈ symbols.map Symbol.id)
          ↔ (s.id ∈ seen ∨ s.id ∈ t.id :: symbols.map Symbol.id) := by
        rw [List.mem_cons]
        tauto
      simp only [hiff]
    · have hiff : (s.id ∈ t.id :: seen ∨ s.id ∈ symbols.map Symbol.id)
          ↔ (s.id ∈ seen ∨ s.id ∈ t.id :: symbols.map Symbol.id) := by
        rw [List.mem_cons, List.mem_cons]
        tauto
      rw [if_neg ht, if_neg ht, ih]
      simp only [hiff]

/-- The walk along the symbols finds the ids that come again, and each as often. -/
theorem repeatedIds_eq_repeats (symbols : List Symbol) :
    repeatedIds [] symbols = repeats symbols := by
  induction symbols using List.reverseRecOn with
  | nil => rfl
  | append_singleton symbols s ih =>
    rw [repeatedIds_concat, repeats_concat, ih]
    simp only [List.not_mem_nil, false_or]

/-- Every symbol is the first with its id or comes again. -/
theorem length_repeats_add_card (symbols : List Symbol) :
    (repeats symbols).length + (symbols.map Symbol.id).toFinset.card = symbols.length := by
  induction symbols using List.reverseRecOn with
  | nil => rfl
  | append_singleton symbols s ih =>
    have hids : ((symbols ++ [s]).map Symbol.id).toFinset
        = insert s.id (symbols.map Symbol.id).toFinset := by
      ext id
      simp
    rw [repeats_concat, hids, List.length_append, List.length_append, List.length_singleton]
    -- Either the id has come already and is reported, or it is one more of its own.
    by_cases h : s.id ∈ symbols.map Symbol.id
    · rw [if_pos h, Finset.insert_eq_of_mem (List.mem_toFinset.2 h), List.length_singleton]
      omega
    · rw [if_neg h, Finset.card_insert_of_notMem (by rwa [List.mem_toFinset]), List.length_nil]
      omega

/-- As many symbols are discarded as come again. -/
theorem length_repeats (symbols : List Symbol) :
    (repeats symbols).length = symbols.length - (catalogue symbols).length := by
  have hall := length_repeats_add_card symbols
  rw [← length_catalogue] at hall
  omega

/-- Closing tells of the ids that came again, and then what came of it all. -/
theorem Collection.events_close (c : Collection) :
    c.close.events = (repeats c.symbols).map .replaced ++
      [.complete c.symbols.length (catalogue c.symbols).length] := by
  rw [← repeatedIds_eq_repeats]
  rfl

/-- Closing tells of the symbols that it discards, and of no line. -/
theorem Collection.told_close {c : Collection} {events : List Event} (h : c.tally.Told events)
    (hdiscarded : c.tally.discarded = 0) : c.close.tally.Told (events ++ c.close.events) where
  unmatched := by
    have hnone : c.close.events.countP Event.isUnmatched = 0 := by
      rw [events_close, List.countP_append, List.countP_map]
      exact congrFun List.countP_false _
    rw [List.countP_append, hnone]
    exact h.unmatched
  noSymbol := by
    have hnone : c.close.events.countP Event.isNoSymbol = 0 := by
      rw [events_close, List.countP_append, List.countP_map]
      exact congrFun List.countP_false _
    rw [List.countP_append, hnone]
    exact h.noSymbol
  replaced := by
    have hall : c.close.events.countP Event.isReplaced = (repeats c.symbols).length := by
      rw [events_close, List.countP_append, List.countP_map]
      exact congrFun List.countP_true _
    rw [List.countP_append, hall, h.replaced, hdiscarded, Nat.zero_add, length_repeats]
    rfl

end SymbolLog
