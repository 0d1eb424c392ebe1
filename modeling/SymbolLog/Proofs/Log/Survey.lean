/-
What a survey of a log finds.

A survey looks at lines until the first fault. For a log that spells a text there is
no fault, and the findings are those of the lines of the text (`ofReader_encode`);
for one that does not, the fault is that of the first malformed chunk
(`fault_of_malformedAt`), whatever was found before it. The counters follow the
findings one by one: as many lines are counted as are looked at, and as many symbols
as are found.
-/
import SymbolLog.Collection
import SymbolLog.Proofs.Log.Handled
import SymbolLog.Proofs.Log.Lines

set_option autoImplicit false

namespace SymbolLog

/-- The symbols that the lines of a log announce, in the order of the lines. -/
def Text.symbols (t : Text) : List Symbol :=
  t.lines.filterMap fun line => (Finding.ofLine line).symbol?

namespace Survey

/-- What some lines yield, with the numbers that follow `count`. -/
def findingsFrom (count : Nat) (lines : List Text) : List (Nat × Finding) :=
  (lines.zipIdx (count + 1)).map fun line => (line.2, Finding.ofLine line.1)

theorem ofReadings_ofLines_append (count : Nat) (lines : List Text) (rest : List Reading) :
    ofReadings (Reading.ofLines count lines ++ rest)
      = { findings := findingsFrom count lines ++ (ofReadings rest).findings
          fault := (ofReadings rest).fault } := by
  induction lines generalizing count with
  | nil => rfl
  | cons t lines ih =>
    rw [Reading.ofLines_cons, List.cons_append, ofReadings, ih]
    rfl

/-- A survey of a log that spells a text finds what its lines yield, and no fault. -/
theorem ofReader_encode (t : Text) :
    ofReader (.ofSource (Source.ofBytes (Utf8.encode t))) = ⟨findingsFrom 0 t.lines, none⟩ := by
  rw [ofReader, readings_encode, ← List.append_nil (Reading.ofLines 0 t.lines),
    ofReadings_ofLines_append]
  show Survey.mk (findingsFrom 0 t.lines ++ []) none = _
  rw [List.append_nil]

theorem symbols_findingsFrom (count : Nat) (lines : List Text) (fault : Option Fault) :
    symbols ⟨findingsFrom count lines, fault⟩
      = lines.filterMap fun line => (Finding.ofLine line).symbol? := by
  induction lines generalizing count with
  | nil => rfl
  | cons t lines ih =>
    have hcons : findingsFrom count (t :: lines)
        = (count + 1, Finding.ofLine t) :: findingsFrom (count + 1) lines := rfl
    have htail := ih (count + 1)
    simp only [symbols] at htail ⊢
    rw [hcons, List.filterMap_cons, List.filterMap_cons, htail]

theorem fault_ofReadings (readings : List Reading) :
    (ofReadings readings).fault = Reading.firstFault? readings := by
  induction readings with
  | nil => rfl
  | cons reading rest ih =>
    cases reading with
    | fault f => rw [Reading.firstFault?_fault, ofReadings]
    | line number t =>
      rw [Reading.firstFault?_line, ← ih]
      rfl

/-- A survey of a malformed log ends with the fault of the first malformed chunk. -/
theorem fault_of_malformedAt {bytes chunk : Bytes} {cause : Utf8.Malformed}
    (h : MalformedAt bytes chunk cause) :
    (ofReader (.ofSource (Source.ofBytes bytes))).fault = some (.malformedText cause) := by
  obtain ⟨⟨before, after, hcut, hbefore⟩, hrefused⟩ := h
  have hyield : Source.Piece.yield ⟨chunk, none⟩ = .error (.malformedText cause) := by
    show (chunkLines chunk).map _ = _
    rw [chunkLines, hrefused]
    rfl
  -- Chunks before the first fault have no influence on it.
  have hnone : ∀ y ∈ before.map fun other => Source.Piece.yield ⟨other, none⟩,
      Reading.yieldedFault? y = none := by
    rw [List.forall_mem_map]
    intro other hother
    obtain ⟨t, rfl⟩ := hbefore other hother
    rw [yield_encode]
    rfl
  obtain ⟨-, hfault⟩ := Reading.handled_ofYields_append hnone (.error (.malformedText cause)
    :: after.map fun other => Source.Piece.yield ⟨other, none⟩) 0
  rw [ofReader, fault_ofReadings, readings_ofBytes, hcut, List.map_append, List.map_cons, hyield,
    hfault, Reading.firstFault?_ofYields]
  rfl

theorem fault_ofDirectory :
    (ofReader (.ofSource Source.ofDirectory)).fault = some .isDirectory := by
  rw [ofReader, Reader.readings_eq]
  rfl

end Survey

/-! ## Collecting and counting -/

theorem collected_of_text (t : Text) :
    (Collection.empty.add ⟨Survey.findingsFrom 0 t.lines, none⟩).symbols = t.symbols := by
  show [] ++ Survey.symbols _ = _
  rw [List.nil_append, Survey.symbols_findingsFrom]
  rfl

theorem Collection.lines_add (c : Collection) (survey : Survey) :
    (c.add survey).tally.lines = c.tally.lines + survey.findings.length := by
  obtain ⟨symbols, tally⟩ := c
  obtain ⟨findings, fault⟩ := survey
  simp only [Collection.add]
  induction findings generalizing tally with
  | nil => rfl
  | cons f findings ih =>
    rw [List.foldl_cons, ih, Tally.lines_record, List.length_cons]
    omega

theorem Tally.matched_record (tally : Tally) (finding : Finding) :
    (tally.record finding).matched = tally.matched + finding.symbol?.toList.length := by
  cases finding with
  | blank => rfl
  | unmarked p => cases p <;> rfl
  | unmatched p => cases p <;> rfl
  | symbol p s => cases p <;> rfl

theorem Collection.matched_add (c : Collection) (survey : Survey) :
    (c.add survey).tally.matched = c.tally.matched + survey.symbols.length := by
  obtain ⟨symbols, tally⟩ := c
  obtain ⟨findings, fault⟩ := survey
  simp only [Collection.add, Survey.symbols]
  -- The tally is folded along the findings, so it is generalised.
  induction findings generalizing tally with
  | nil => rfl
  | cons f findings ih =>
    rw [List.foldl_cons, ih, Tally.matched_record, List.filterMap_cons]
    cases f.2.symbol? with
    | none => rfl
    | some s =>
      simp only [Option.toList_some, List.length_cons, List.length_nil]
      omega

end SymbolLog
