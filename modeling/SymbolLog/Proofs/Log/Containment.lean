/-
Malformed bytes are contained in their chunk.

A log is cut behind its line feeds, and of each chunk one may ask for itself whether it spells a
text. Nothing has to be asked of the log as a whole: a line feed is no part of any other
character, so a log spells a text exactly if each of its chunks does (`spellsText_iff`). What a
reader drops from the end of a chunk before it decodes the chunk has no influence on the answer
either, since both characters are of ASCII.

So the reader finds the lines of the chunks that spell a text and one fault for each of the
others, and it cannot lose track of the numbers: a fault has none, and the lines are those of
the log without the chunks that are malformed (`readings_contained`).
-/
import SymbolLog.Proofs.Log.Handled
import SymbolLog.Proofs.Log.Lines
import Mathlib.Data.List.Forall2

set_option autoImplicit false

namespace SymbolLog

/-! ## The chunks of a log -/

/-- The chunks of a log, each with the line feed behind which the log is cut. -/
def Bytes.chunks : Bytes → List Bytes
  | [] => []
  | b :: log => if b = Source.lineFeed then [b] :: chunks log else consFirst b (chunks log)

/-- A chunk without the line feed at its end. -/
def dropFinalFeed (chunk : Bytes) : Bytes :=
  if chunk.getLast? = some Source.lineFeed then chunk.dropLast else chunk

namespace Bytes

variable {a chunk log : Bytes}

/-- A log without a line feed is one chunk, unless it is empty. -/
theorem chunks_of_not_mem (ha : Source.lineFeed ∉ a) (hne : a ≠ []) : chunks a = [a] := by
  induction a with
  | nil => exact absurd rfl hne
  | cons b a ih =>
    rw [List.mem_cons, not_or] at ha
    rw [chunks, if_neg (Ne.symm ha.1)]
    by_cases hnil : a = []
    · rw [hnil]
      rfl
    · rw [ih ha.2 hnil]
      rfl

theorem chunks_append_cons (ha : Source.lineFeed ∉ a) (log : Bytes) :
    chunks (a ++ Source.lineFeed :: log) = (a ++ [Source.lineFeed]) :: chunks log := by
  induction a with
  | nil => rw [List.nil_append, chunks, if_pos rfl, List.nil_append]
  | cons b a ih =>
    rw [List.mem_cons, not_or] at ha
    rw [List.cons_append, chunks, if_neg (Ne.symm ha.1), ih ha.2]
    rfl

theorem flatten_chunks (log : Bytes) : log.chunks.flatten = log := by
  induction log using cut_induction Source.lineFeed with
  | nil => rfl
  | last a ha hne =>
    rw [chunks_of_not_mem ha hne, List.flatten_singleton]
  | part a log ha ih =>
    rw [chunks_append_cons ha, List.flatten_cons, ih, List.append_assoc, List.singleton_append]

/-- Chunks are found again when some of them are left out. -/
theorem chunks_flatten_filter (p : Bytes → Bool) (log : Bytes) :
    chunks (log.chunks.filter p).flatten = log.chunks.filter p := by
  induction log using cut_induction Source.lineFeed with
  | nil => rfl
  | last a ha hne =>
    rw [chunks_of_not_mem ha hne]
    by_cases hp : p a = true
    · rw [List.filter_cons_of_pos hp, List.filter_nil, List.flatten_singleton,
        chunks_of_not_mem ha hne]
    · rw [List.filter_cons_of_neg hp]
      rfl
  -- A chunk that is kept still ends where it did, since it keeps its line feed.
  | part a log ha ih =>
    rw [chunks_append_cons ha]
    by_cases hp : p (a ++ [Source.lineFeed]) = true
    · rw [List.filter_cons_of_pos hp, List.flatten_cons, List.append_assoc,
        List.singleton_append, chunks_append_cons ha, ih]
    · rw [List.filter_cons_of_neg hp, ih]

/-- The chunks of a log are the parts that a reader cuts it into. -/
theorem map_dropFinalFeed_chunks (log : Bytes) :
    log.chunks.map dropFinalFeed = cutAfter Source.lineFeed log := by
  have hopen {a : Bytes} (ha : Source.lineFeed ∉ a) : dropFinalFeed a = a :=
    if_neg fun hlast => ha (List.mem_of_getLast? hlast)
  have hended (a : Bytes) : dropFinalFeed (a ++ [Source.lineFeed]) = a := by
    rw [dropFinalFeed, List.getLast?_concat, if_pos rfl, List.dropLast_concat]
  induction log using cut_induction Source.lineFeed with
  | nil => rfl
  | last a ha hne =>
    rw [chunks_of_not_mem ha hne, cutAfter_of_not_mem ha hne, List.map_cons, List.map_nil,
      hopen ha]
  | part a log ha ih =>
    rw [chunks_append_cons ha, cutAfter_append_cons ha, List.map_cons, hended, ih]

/-- A chunk is one part. -/
theorem cutAfter_of_mem_chunks (h : chunk ∈ log.chunks) :
    cutAfter Source.lineFeed chunk = [dropFinalFeed chunk] := by
  have hself : chunk.chunks = [chunk] := by
    -- Behind the chunks that come before it, the chunk is the first of a log.
    induction log using cut_induction Source.lineFeed with
    | nil => exact absurd h List.not_mem_nil
    | last a ha hne =>
      rw [chunks_of_not_mem ha hne, List.mem_singleton] at h
      rw [h, chunks_of_not_mem ha hne]
    | part a log ha ih =>
      rw [chunks_append_cons ha, List.mem_cons] at h
      obtain rfl | h := h
      · exact chunks_append_cons ha []
      · exact ih h
  rw [← map_dropFinalFeed_chunks, hself, List.map_cons, List.map_nil]

/-- The text of a chunk is one part as well. -/
theorem cutAfter_of_encode_mem_chunks {t : Text} (h : Utf8.encode t ∈ log.chunks) :
    ∃ s, cutAfter '\n' t = [s] ∧ Utf8.encode s = dropFinalFeed (Utf8.encode t) := by
  have hcut := cutAfter_of_mem_chunks h
  rw [cutAfter_encode] at hcut
  exact List.map_eq_singleton_iff.1 hcut

end Bytes

/-! ## Chunks that spell a text -/

/-- Some bytes are those of a text. -/
def SpellsText (bytes : Bytes) : Prop := ∃ t, bytes = Utf8.encode t

instance (bytes : Bytes) : Decidable (SpellsText bytes) :=
  match h : Utf8.decode bytes with
  | .ok t => isTrue ⟨t, Utf8.decode_eq_ok_iff.1 h⟩
  | .error _ => isFalse fun ⟨t, ht⟩ => by
    rw [ht, Utf8.decode_encode] at h
    cases h

/-- The line feed at the end of a chunk is a text by itself. -/
theorem SpellsText.of_dropFinalFeed {chunk : Bytes} (h : SpellsText (dropFinalFeed chunk)) :
    SpellsText chunk := by
  obtain ⟨t, ht⟩ := h
  obtain heq | heq : chunk = dropFinalFeed chunk ∨ chunk = dropFinalFeed chunk ++ _ :=
    eq_or_append_of_dropLast Source.lineFeed chunk
  · exact ⟨t, heq.trans ht⟩
  · refine ⟨t ++ ['\n'], heq.trans ?_⟩
    rw [ht, Utf8.encode_append]
    rfl

/-- A log spells a text if its chunks do. -/
theorem spellsText_iff {log : Bytes} : SpellsText log ↔ ∀ chunk ∈ log.chunks, SpellsText chunk := by
  constructor
  · rintro ⟨t, rfl⟩ chunk hchunk
    -- The line feed of a chunk is taken off, as chunks are cut without it.
    have hpart := List.mem_map_of_mem (f := dropFinalFeed) hchunk
    rw [Bytes.map_dropFinalFeed_chunks, cutAfter_encode] at hpart
    obtain ⟨s, -, hs⟩ := List.mem_map.1 hpart
    exact .of_dropFinalFeed ⟨s, hs.symm⟩
  · intro h
    apply exists_encode_of_cutAfter
    intro part hpart
    rw [← Bytes.map_dropFinalFeed_chunks] at hpart
    obtain ⟨chunk, hchunk, rfl⟩ := List.mem_map.1 hpart
    obtain ⟨t, rfl⟩ := h chunk hchunk
    obtain ⟨s, -, hs⟩ := Bytes.cutAfter_of_encode_mem_chunks hchunk
    exact ⟨s, hs.symm⟩

/-! ## What a chunk is read as -/

/-- What one chunk of a log is read as: the lines of the text that it spells, or one fault if it
spells none. The fault says what is wrong with the chunk less its line feed and then less a
carriage return. -/
inductive ReadAs (chunk : Bytes) : Except Fault (List Text) → Prop
  | lines (t : Text) (h : chunk = Utf8.encode t) : ReadAs chunk (.ok t.lines)
  | fault (cause : Utf8.Malformed) (h : ¬ SpellsText chunk)
      (hcause : Utf8.decode (dropFinalReturn (dropFinalFeed chunk)) = .error cause) :
      ReadAs chunk (.error (.malformedText cause))

/-- What a reader makes of a chunk. -/
def Bytes.yieldOf (chunk : Bytes) : Except Fault (List Text) :=
  Source.Piece.yield ⟨dropFinalFeed chunk, none⟩

/-- A chunk is read as its lines if it spells a text, and as one fault otherwise. -/
theorem readAs_yieldOf {chunk log : Bytes} (h : chunk ∈ log.chunks) :
    ReadAs chunk chunk.yieldOf := by
  by_cases hspells : SpellsText chunk
  · obtain ⟨t, rfl⟩ := hspells
    -- The lines of the text are those of its one part, which is what the reader decodes.
    obtain ⟨s, hs, hencode⟩ := Bytes.cutAfter_of_encode_mem_chunks h
    have hyield : Bytes.yieldOf (Utf8.encode t) = .ok t.lines := by
      rw [Bytes.yieldOf, ← hencode, yield_encode, lines_eq_flatMap, hs, List.flatMap_singleton]
    rw [hyield]
    exact .lines t rfl
  · -- What the reader decodes spells no text either, or the chunk would with its end put back.
    cases hdecode : Utf8.decode (dropFinalReturn (dropFinalFeed chunk)) with
    | ok t => exact absurd (SpellsText.of_dropFinalFeed (exists_encode_of_decode hdecode)) hspells
    | error cause =>
      have hyield : chunk.yieldOf = .error (.malformedText cause) := by
        show (chunkLines (dropFinalFeed chunk)).map _ = _
        rw [chunkLines, hdecode]
        rfl
      rw [hyield]
      exact .fault cause hspells hdecode

/-! ## Lines among faults -/

namespace Reading

def isLine (reading : Reading) : Bool := reading.line?.isSome

/-- The number of a reading that has one. -/
def number? : Reading → Option Nat
  | .line n _ => some n
  | .fault _ => none

theorem filter_isLine_ofLines (count : Nat) (lines : List Text) :
    (ofLines count lines).filter isLine = ofLines count lines := by
  refine List.filter_eq_self.2 ?_
  intro reading hreading
  obtain ⟨line, -, rfl⟩ := List.mem_map.1 hreading
  rfl

/-- Faults take no number. -/
theorem filter_isLine_ofYields (count : Nat) (yields : List (Except Fault (List Text))) :
    (ofYields count yields).filter isLine = ofLines count (yields.flatMap yieldedLines) := by
  induction yields generalizing count with
  | nil => rfl
  | cons first rest ih =>
    cases first with
    | error f => exact ih count
    | ok lines =>
      rw [ofYields, List.filter_append, filter_isLine_ofLines, ih, ← ofLines_append]
      rfl

theorem map_number?_ofLines (count : Nat) (lines : List Text) :
    (ofLines count lines).filterMap number? = List.range' (count + 1) lines.length := by
  induction lines generalizing count with
  | nil => rfl
  | cons t lines ih =>
    have hnumber : number? (.line (count + 1) t) = some (count + 1) := rfl
    rw [ofLines_cons, List.filterMap_cons_some hnumber, ih, List.length_cons, List.range'_succ]

/-- Faults have no numbers, so leaving them out leaves the numbers. -/
theorem filterMap_number?_filter (readings : List Reading) :
    (readings.filter isLine).filterMap number? = readings.filterMap number? := by
  rw [List.filterMap_filter]
  congr 1
  funext reading
  cases reading <;> rfl

/-- There are as many faults among the readings as chunks that have one, and they are these. -/
theorem fault_mem_ofYields {f : Fault} {count : Nat} {yields : List (Except Fault (List Text))} :
    .fault f ∈ ofYields count yields ↔ .error f ∈ yields := by
  induction yields generalizing count with
  | nil => simp [ofYields]
  | cons first rest ih =>
    cases first with
    | error g => simp [ofYields, ih]
    | ok lines => simp [ofYields, ofLines, ih]

end Reading

/-! ## The readings of a log -/

/-- Everything that a reader of a log hands out. -/
def Bytes.readings (log : Bytes) : List Reading := (Reader.ofSource (.ofBytes log)).readings

namespace Bytes

variable {log : Bytes}

/-- The readings of a log are what its chunks are read as. -/
theorem readings_eq (log : Bytes) :
    log.readings = Reading.ofYields 0 (log.chunks.map yieldOf) := by
  rw [readings, readings_ofBytes, ← map_dropFinalFeed_chunks, List.map_map]
  rfl

theorem lines_readings (log : Bytes) :
    log.readings.filter Reading.isLine
      = Reading.ofLines 0 (log.chunks.flatMap fun chunk => Reading.yieldedLines chunk.yieldOf) := by
  rw [readings_eq, Reading.filter_isLine_ofYields, List.flatMap_map]

/-- A log has a fault among its readings if and only if it does not spell a text. -/
theorem malformed_mem_readings_iff :
    (∃ cause, .fault (.malformedText cause) ∈ log.readings) ↔ ¬ SpellsText log := by
  rw [spellsText_iff, readings_eq]
  simp only [Reading.fault_mem_ofYields, List.mem_map, Classical.not_forall, exists_prop]
  constructor
  · rintro ⟨cause, chunk, hchunk, hyield⟩
    -- A chunk with a fault spells no text.
    have hread := readAs_yieldOf hchunk
    rw [hyield] at hread
    cases hread with
    | fault _ hspells _ => exact ⟨chunk, hchunk, hspells⟩
  · rintro ⟨chunk, hchunk, hspells⟩
    have hread := readAs_yieldOf hchunk
    generalize hyield : chunk.yieldOf = yielded at hread
    cases hread with
    | lines t ht => exact absurd ⟨t, ht⟩ hspells
    | fault cause _ _ => exact ⟨cause, chunk, hchunk, hyield⟩

/-- The chunks that spell no text have no part in the lines. -/
theorem flatMap_filter_chunks (log : Bytes) :
    (log.chunks.filter fun chunk => SpellsText chunk).flatMap
        (fun chunk => Reading.yieldedLines chunk.yieldOf)
      = log.chunks.flatMap fun chunk => Reading.yieldedLines chunk.yieldOf := by
  have hread : ∀ chunk ∈ log.chunks, ReadAs chunk chunk.yieldOf := fun _ => readAs_yieldOf
  generalize log.chunks = chunks at hread
  induction chunks with
  | nil => rfl
  | cons chunk chunks ih =>
    obtain ⟨hfirst, hrest⟩ := List.forall_mem_cons.1 hread
    by_cases hspells : SpellsText chunk
    · rw [List.filter_cons_of_pos (by simpa using hspells), List.flatMap_cons, ih hrest,
        List.flatMap_cons]
    · -- The chunk that is left out had no lines.
      rw [List.filter_cons_of_neg (by simpa using hspells), ih hrest, List.flatMap_cons]
      generalize chunk.yieldOf = yielded at hfirst
      cases hfirst with
      | lines t ht => exact absurd ⟨t, ht⟩ hspells
      | fault cause _ _ => rfl

/-- Without the chunks that spell no text, a log spells one. -/
theorem spellsText_filter_chunks (log : Bytes) :
    SpellsText (log.chunks.filter fun chunk => SpellsText chunk).flatten := by
  rw [spellsText_iff, chunks_flatten_filter]
  intro chunk hchunk
  simpa using (List.mem_filter.1 hchunk).2

/-- Without the chunks that spell no text, a log has the same lines with the same numbers, and no
fault. -/
theorem readings_filter_chunks (log : Bytes) :
    readings (log.chunks.filter fun chunk => SpellsText chunk).flatten
      = log.readings.filter Reading.isLine := by
  have hlines {log : Bytes} (h : SpellsText log) :
      log.readings = log.readings.filter Reading.isLine := by
    obtain ⟨t, rfl⟩ := h
    rw [readings, readings_encode, Reading.filter_isLine_ofLines]
  rw [hlines (spellsText_filter_chunks log), lines_readings, chunks_flatten_filter,
    flatMap_filter_chunks, lines_readings]

end Bytes

/-- **Malformed bytes are contained in their chunk.** A log is its chunks, and a reader hands
out, chunk by chunk, the lines of the text that a chunk spells, or one fault if it spells none;
there is such a fault exactly if the log as a whole spells no text; and the lines with their
numbers are those of the log without the chunks that are malformed, so they are numbered from one
without a gap. -/
theorem readings_contained (log : Bytes) :
    log.chunks.flatten = log ∧
      (∃ yields, List.Forall₂ ReadAs log.chunks yields ∧
        log.readings = Reading.ofYields 0 yields) ∧
      ((∃ cause, .fault (.malformedText cause) ∈ log.readings) ↔ ¬ SpellsText log) ∧
      log.readings.filter Reading.isLine
        = Bytes.readings (log.chunks.filter fun chunk => SpellsText chunk).flatten ∧
      log.readings.filterMap Reading.number?
        = List.range' 1 (log.readings.filter Reading.isLine).length := by
  refine ⟨log.flatten_chunks, ?_, Bytes.malformed_mem_readings_iff,
    (Bytes.readings_filter_chunks log).symm, ?_⟩
  · refine ⟨log.chunks.map Bytes.yieldOf, ?_, log.readings_eq⟩
    rw [List.forall₂_map_right_iff, List.forall₂_same]
    intro chunk hchunk
    exact readAs_yieldOf hchunk
  · rw [← Reading.filterMap_number?_filter, log.lines_readings, Reading.map_number?_ofLines,
      Reading.ofLines, List.length_map, List.length_zipIdx]

example : Bytes.readings [0x61, 0x0A, 0x62, 0xC3, 0x0A, 0x0D, 0x64]
    = [.line 1 ['a'], .fault (.malformedText (.incomplete 1)), .line 2 [], .line 3 ['d']] := by
  cbv

end SymbolLog
