/-
A reader makes progress whenever it is asked, and comes to an end.

A reader that is asked for a reading goes on filling its queue for as long as nothing is queued
(`Reader.Fetches`). Nothing is gained by this being a loop, since one chunk always suffices: a
chunk takes a byte off the source at least, and it has a line even if that is empty. The loop is
seen to fill the queue once if nothing is queued and not at all otherwise, and to come to the same
as a reading (`fetches_iff`).

What bounds the readings is that the lines of a chunk are no more than its bytes. Carriage returns
are what makes lines in a chunk, and a chunk of carriage returns alone drops the last of them; any
other chunk has a byte that is none. Hence what is queued and what is left of the source together
get shorter with every reading (`left_lt_of_next?`).
-/
import SymbolLog.Proofs.Log.Containment
import Mathlib.Data.List.TakeDrop

set_option autoImplicit false

namespace SymbolLog

/-! ## The lines of a chunk -/

theorem length_splitAtReturns (t : Text) : (splitAtReturns t).2.length = t.count '\r' := by
  induction t with
  | nil => rfl
  | cons c t ih =>
    by_cases hc : c = '\r'
    · simp [splitAtReturns, hc, ih]
    · simp [splitAtReturns, hc, ih]

/-- A chunk without the carriage return at its end has a byte less or a byte that is none. -/
theorem count_dropFinalReturn_lt {bytes : Bytes} (h : bytes ≠ []) :
    (dropFinalReturn bytes).count Source.carriageReturn < bytes.length := by
  obtain ⟨front, b, rfl⟩ := (List.eq_nil_or_concat bytes).resolve_left h
  have hfront : front.count Source.carriageReturn ≤ front.length := List.count_le_length
  rw [List.concat_eq_append, dropFinalReturn, List.getLast?_concat, List.length_append,
    List.length_singleton]
  by_cases hb : b = Source.carriageReturn
  · rw [if_pos (congrArg some hb), List.dropLast_concat]
    omega
  · rw [if_neg fun hlast => hb (Option.some.inj hlast), List.count_append,
      List.count_singleton, if_neg (by simpa using hb)]
    omega

/-- A chunk has one line more than it has carriage returns to be split at. -/
theorem length_yield {bytes : Bytes} {lines : List Text}
    (h : Source.Piece.yield ⟨bytes, none⟩ = .ok lines) :
    lines.length = (dropFinalReturn bytes).count Source.carriageReturn + 1 := by
  replace h : (chunkLines bytes).map (fun lines => lines.1 :: lines.2) = .ok lines := h
  rw [chunkLines] at h
  split at h
  next t hdecode =>
    cases h
    have hcount : (Utf8.encode t).count Source.carriageReturn = t.count '\r' :=
      Utf8.count_encode (c := '\r') (by decide) t
    rw [Utf8.decode_eq_ok_iff.1 hdecode, hcount, ← length_splitAtReturns, List.length_cons]
  · cases h

/-! ## Filling the queue -/

namespace Source

/-- Nothing of a source is lost: it is the bytes of the chunk, what ends it, and the rest. -/
theorem eq_of_nextChunk (source : Source) :
    source = ofBytes (nextChunk source).1 ++ (nextChunk source).2.signals := by
  induction source with
  | nil => rfl
  | cons signal source ih =>
    cases signal with
    | failure fault => rfl
    | byte b =>
      by_cases hb : b = lineFeed
      · rw [nextChunk, if_pos hb, hb]
        rfl
      · rw [nextChunk, if_neg hb]
        exact congrArg (Signal.byte b :: ·) ih

end Source

namespace Reader

/-- Filling takes some bytes off the source and queues some lines, no more than these. -/
structure FilledBy (r after : Reader) (bytes : Bytes) (lines : List Text) : Prop where
  source : r.source = Source.ofBytes bytes ++ after.source
  queue : after.queue = r.queue ++ lines
  nonempty : 1 ≤ lines.length
  fewer : lines.length ≤ bytes.length

/-- The lines of a chunk are no more than the bytes that it takes off the source. -/
theorem exists_taken {source : Source} {bytes : Bytes} {stop : Source.ChunkEnd} {lines : List Text}
    (hsource : source = Source.ofBytes bytes ++ stop.signals) (hne : source ≠ [])
    (hyield : Source.Piece.yield ⟨bytes, stop.failure?⟩ = .ok lines) :
    ∃ taken, source = Source.ofBytes taken ++ stop.rest ∧ 1 ≤ lines.length ∧
      lines.length ≤ taken.length := by
  cases stop with
  | failure f rest => cases hyield
  | lineFeed rest =>
    -- The line feed is a byte more than the chunk has without it.
    have hcount : (dropFinalReturn bytes).count Source.carriageReturn ≤ bytes.length := by
      by_cases hnil : bytes = []
      · rw [hnil]
        decide
      · exact Nat.le_of_lt (count_dropFinalReturn_lt hnil)
    have hlines := length_yield hyield
    refine ⟨bytes ++ [Source.lineFeed], ?_, by omega, ?_⟩
    · rw [hsource, Source.ofBytes, Source.ofBytes, List.map_append, List.append_assoc]
      rfl
    · rw [List.length_append, List.length_singleton]
      omega
  | sourceEnd =>
    have hbytes : bytes ≠ [] := by
      rintro rfl
      exact hne hsource
    have hcount := count_dropFinalReturn_lt hbytes
    have hlines := length_yield hyield
    exact ⟨bytes, hsource, by omega, by omega⟩

/-- All that filling can do: nothing is left, a chunk is lost, or its lines are queued. -/
theorem fill_cases (r : Reader) :
    r.source = [] ∧ r.fill = (.ok false, r) ∨
      (∃ f rest, r.fill = (.error f, { r with source := rest }) ∧
        rest.length < r.source.length) ∨
      ∃ after bytes lines, r.fill = (.ok true, after) ∧ r.FilledBy after bytes lines := by
  obtain ⟨source, queue, count⟩ := r
  cases source with
  | nil => exact .inl ⟨rfl, rfl⟩
  | cons signal source =>
    right
    have hshorter := Source.length_rest_nextChunk_lt signal source
    have hsource := Source.eq_of_nextChunk (signal :: source)
    simp only [fill]
    generalize Source.nextChunk (signal :: source) = chunk at hshorter hsource
    obtain ⟨bytes, stop⟩ := chunk
    -- The chunk has lines, or the source has failed within it, or it is no text.
    cases hyield : Source.Piece.yield ⟨bytes, stop.failure?⟩ with
    | error f => exact .inl ⟨f, stop.rest, rfl, hshorter⟩
    | ok lines =>
      obtain ⟨taken, htaken, hsome, hfewer⟩ := exists_taken hsource (List.cons_ne_nil _ _) hyield
      exact .inr ⟨_, taken, lines, rfl, htaken, rfl, hsome, hfewer⟩

/-- A reader with nothing queued hands out the first line of the next chunk, or its fault. -/
theorem next?_of_chunk {signal : Signal} {source : Source} {bytes : Bytes}
    {stop : Source.ChunkEnd} (count : Nat)
    (hchunk : Source.nextChunk (signal :: source) = (bytes, stop)) (hstop : stop.failure? = none) :
    next? ⟨signal :: source, [], count⟩
      = some (readChunk ⟨signal :: source, [], count⟩ bytes stop.rest) := by
  rw [next?]
  dsimp only
  rw [hchunk]
  cases stop with
  | failure f rest => cases hstop
  | lineFeed rest => rfl
  | sourceEnd => rfl

/-- The loop goes round once more after the queue is filled. -/
theorem fetch_of_fill {r : Reader} (hempty : r.queue = []) :
    r.fetch =
      match r.fill with
      | (.ok true, next) => next.fetch
      | (.ok false, next) => (none, next)
      | (.error f, next) => (some (.fault f), next) := by
  obtain ⟨source, queue, count⟩ := r
  obtain rfl : queue = [] := hempty
  cases source with
  | nil => rfl
  | cons signal source =>
    obtain ⟨bytes, stop, hchunk⟩ :
        ∃ bytes stop, Source.nextChunk (signal :: source) = (bytes, stop) := ⟨_, _, rfl⟩
    cases hstop : stop.failure? with
    | some f =>
      -- The bytes before a failure are lost to both.
      cases stop with
      | failure f' rest =>
        cases hstop
        simp only [fetch, next?, fill, hchunk]
        rfl
      | lineFeed rest => cases hstop
      | sourceEnd => cases hstop
    | none =>
      have hyield : Source.Piece.yield ⟨bytes, none⟩
          = (chunkLines bytes).map fun lines => lines.1 :: lines.2 := rfl
      rw [fetch, next?_of_chunk count hchunk hstop, readChunk, fill]
      simp only [hchunk, hstop, hyield]
      cases chunkLines bytes with
      | error f => rfl
      | ok lines => rfl

theorem FilledBy.queue_ne_nil {r after : Reader} {bytes : Bytes} {lines : List Text}
    (h : r.FilledBy after bytes lines) : after.queue ≠ [] := by
  intro hnil
  have hlines : lines = [] := (List.append_eq_nil_iff.1 (h.queue.symm.trans hnil)).2
  have hsome := h.nonempty
  rw [hlines] at hsome
  cases hsome

/-- **The loop fills an empty queue once**, and its outcome is what is handed out next. -/
theorem fetches_iff {r : Reader} {fills : Nat} {outcome : Option Reading × Reader} :
    Fetches r fills outcome ↔ fills = (if r.queue = [] then 1 else 0) ∧ outcome = r.fetch := by
  constructor
  · intro h
    -- The induction is on the loop, and the case that it comes round again is the only one with a
    -- hypothesis.
    induction h with
    | queued => exact ⟨rfl, rfl⟩
    | @filled r next fills outcome hempty hfill _ ih =>
      obtain ⟨-, hended⟩ | ⟨f, rest, hfailed, -⟩ | ⟨after, bytes, lines, htrue, hfilled⟩ :=
        fill_cases r
      · cases hfill.symm.trans hended
      · cases hfill.symm.trans hfailed
      · -- A chunk queues a line, so the loop is left when it comes round.
        obtain rfl : after = next := congrArg Prod.snd (htrue.symm.trans hfill)
        obtain ⟨rfl, rfl⟩ := ih
        rw [if_neg hfilled.queue_ne_nil, if_pos hempty, fetch_of_fill hempty, hfill]
        exact ⟨rfl, rfl⟩
    | ended hempty hfill =>
      rw [if_pos hempty, fetch_of_fill hempty, hfill]
      exact ⟨rfl, rfl⟩
    | failed hempty hfill =>
      rw [if_pos hempty, fetch_of_fill hempty, hfill]
      exact ⟨rfl, rfl⟩
  · rintro ⟨rfl, rfl⟩
    obtain ⟨source, queue, count⟩ := r
    cases queue with
    | cons t queue => exact .queued
    | nil =>
      rw [if_pos rfl, fetch_of_fill rfl]
      obtain ⟨-, hended⟩ | ⟨f, rest, hfailed, -⟩ | ⟨after, bytes, lines, htrue, hfilled⟩ :=
        fill_cases ⟨source, [], count⟩
      · rw [hended]
        exact .ended rfl hended
      · rw [hfailed]
        exact .failed rfl hfailed
      · rw [htrue]
        refine .filled rfl htrue ?_
        obtain ⟨source, queue, count⟩ := after
        cases queue with
        | nil => exact absurd rfl hfilled.queue_ne_nil
        | cons t queue => exact .queued

/-! ## Coming to an end -/

/-- What is queued and what is left of the source, together. -/
def left (r : Reader) : Nat := r.queue.length + r.source.length

/-- A filling moves lines from the source to the queue and makes no more of them than it has taken
bytes. -/
theorem FilledBy.left_le {r after : Reader} {bytes : Bytes} {lines : List Text}
    (h : r.FilledBy after bytes lines) : after.left ≤ r.left := by
  have hfewer := h.fewer
  rw [left, left, h.queue, h.source, List.length_append, List.length_append, Source.ofBytes,
    List.length_map]
  omega

theorem next?_eq_some_iff {r after : Reader} {reading : Reading} :
    r.next? = some (reading, after) ↔ r.fetch = (some reading, after) := by
  rw [fetch]
  cases r.next? with
  | none => simp
  | some step => simp [Prod.ext_iff]

theorem left_lt_of_queue {r after : Reader} {reading : Reading} (hqueue : r.queue ≠ [])
    (h : r.fetch = (some reading, after)) : after.left < r.left := by
  obtain ⟨source, queue, count⟩ := r
  obtain ⟨t, queue, rfl⟩ := List.exists_cons_of_ne_nil hqueue
  cases h
  show queue.length + source.length < (queue.length + 1) + source.length
  omega

/-- **Every reading leaves less** than there was. -/
theorem left_lt_of_next? {r after : Reader} {reading : Reading}
    (h : r.next? = some (reading, after)) : after.left < r.left := by
  rw [next?_eq_some_iff] at h
  by_cases hempty : r.queue = []
  · rw [fetch_of_fill hempty] at h
    obtain ⟨-, hended⟩ | ⟨f, rest, hfailed, hshorter⟩ | ⟨next, bytes, lines, htrue, hfilled⟩ :=
      fill_cases r
    · -- A filling that finds nothing hands nothing out.
      rw [hended] at h
      cases h
    · rw [hfailed] at h
      cases h
      exact Nat.add_lt_add_left hshorter _
    · rw [htrue] at h
      exact Nat.lt_of_lt_of_le (left_lt_of_queue hfilled.queue_ne_nil h) hfilled.left_le
  · exact left_lt_of_queue hempty h

/-- There are no more readings than what is left allows, since each of them takes something off
it. -/
theorem length_readings_le (r : Reader) : r.readings.length ≤ r.left := by
  induction r using readings.induct with
  | case1 r hnext =>
    rw [readings_of_next?_none hnext]
    exact Nat.zero_le _
  | case2 r reading after hnext _ ih =>
    have hless := left_lt_of_next? hnext
    rw [readings_of_next?_some hnext, List.length_cons]
    omega

/-- What a reader hands out, call by call, with none where there is nothing to be handed out. -/
inductive Calls : Reader → List (Option Reading) → Prop
  | nil {r : Reader} : Calls r []
  | cons {r after : Reader} {fills : Nat} {handed : Option Reading}
    {later : List (Option Reading)} (hfetch : Fetches r fills (handed, after))
    (hlater : Calls after later) : Calls r (handed :: later)

/-- Fetching takes the first of the readings, and takes nothing from a reader at its end. -/
theorem readings_fetch (r : Reader) :
    r.fetch.1 = r.readings.head? ∧ r.fetch.2.readings = r.readings.tail := by
  rw [fetch]
  cases hnext : r.next? with
  | none =>
    rw [readings_of_next?_none hnext]
    exact ⟨rfl, rfl⟩
  | some step =>
    rw [readings_of_next?_some hnext]
    exact ⟨rfl, rfl⟩

/-- **The calls hand out the readings and then none for ever.** -/
theorem calls_iff {r : Reader} {handed : List (Option Reading)} :
    Calls r handed ↔ handed = (r.readings.map some).takeD handed.length none := by
  induction handed generalizing r with
  | nil => exact ⟨fun _ => rfl, fun _ => .nil⟩
  | cons first later ih =>
    obtain ⟨hhead, htail⟩ := readings_fetch r
    -- One call more takes the first reading, or nothing if there is none.
    have hstep : (r.readings.map some).takeD (later.length + 1) none
        = r.fetch.1 :: (r.fetch.2.readings.map some).takeD later.length none := by
      rw [List.takeD_succ, hhead, htail, List.map_tail, List.head?_map]
      cases r.readings.head? <;> rfl
    rw [List.length_cons, hstep, List.cons_eq_cons, ← ih]
    constructor
    · intro h
      cases h with
      | cons hfetch hlater =>
        have houtcome := (fetches_iff.1 hfetch).2
        exact ⟨congrArg Prod.fst houtcome, congrArg Prod.snd houtcome ▸ hlater⟩
    · rintro ⟨rfl, hlater⟩
      exact .cons (fetches_iff.2 ⟨rfl, rfl⟩) hlater

end Reader

/-! ## Logs -/

/-- The source of a log, which may fail once at an offset. -/
def Bytes.source (log : Bytes) : Option (Nat × Fault) → Source
  | none => .ofBytes log
  | some (offset, fault) => .failingAt offset fault log

theorem length_ofBytes (bytes : Bytes) : (Source.ofBytes bytes).length = bytes.length :=
  List.length_map _

/-- A source has the bytes of its log and a failure at most. -/
theorem length_source_le (log : Bytes) (failure : Option (Nat × Fault)) :
    (log.source failure).length ≤ log.length + 1 ∧
      ((∀ offset fault, failure = some (offset, fault) → log.length < offset) →
        log.source failure = .ofBytes log) := by
  cases failure with
  | none => exact ⟨by rw [Bytes.source, length_ofBytes]; omega, fun _ => rfl⟩
  | some failure =>
    obtain ⟨offset, fault⟩ := failure
    rw [Bytes.source, Source.failingAt]
    by_cases hoffset : offset ≤ log.length
    · rw [if_pos hoffset]
      refine ⟨?_, fun hbeyond => absurd (hbeyond offset fault rfl) (Nat.not_lt.2 hoffset)⟩
      rw [List.length_append, List.length_cons, length_ofBytes, length_ofBytes, List.length_take,
        List.length_drop]
      omega
    · rw [if_neg hoffset, length_ofBytes]
      exact ⟨Nat.le_succ _, fun _ => rfl⟩

/-- **A reader gets on whenever it is asked.** When it fills its queue, bytes are taken off the
source and a line is queued at least, and no more lines than bytes; so the loop behind a reading
has one outcome, for which it fills the queue at most once. The reader of a log whose source may
fail once hands out one reading more than the log has bytes at most, and no more than these if
the source does not fail; and from then on it hands out none, however often it is asked. -/
theorem reader_progresses (log : Bytes) (failure : Option (Nat × Fault)) :
    let reader := Reader.ofSource (log.source failure)
    (∀ r after : Reader, r.fill = (.ok true, after) → ∃ bytes lines, r.FilledBy after bytes lines) ∧
      (∀ r : Reader, ∃ fills ≤ 1, ∀ n outcome,
        Reader.Fetches r n outcome ↔ n = fills ∧ outcome = r.fetch) ∧
      reader.readings.length ≤ log.length + 1 ∧
      ((∀ offset fault, failure = some (offset, fault) → log.length < offset) →
        reader.readings.length ≤ log.length) ∧
      ∀ handed, Reader.Calls reader handed ↔
        handed = (reader.readings.map some).takeD handed.length none := by
  intro reader
  have hlength : reader.readings.length ≤ 0 + (log.source failure).length :=
    reader.length_readings_le
  obtain ⟨hsource, hnone⟩ := length_source_le log failure
  refine ⟨?_, ?_, by omega, ?_, fun handed => Reader.calls_iff⟩
  · intro r after hfill
    -- Of the three things that a filling may come to, only the last says that there was a chunk.
    obtain ⟨-, hended⟩ | ⟨f, rest, hfailed, -⟩ | ⟨next, bytes, lines, htrue, hfilled⟩ :=
      r.fill_cases
    · cases hfill.symm.trans hended
    · cases hfill.symm.trans hfailed
    · obtain rfl : next = after := congrArg Prod.snd (htrue.symm.trans hfill)
      exact ⟨bytes, lines, hfilled⟩
  · intro r
    refine ⟨if r.queue = [] then 1 else 0, ?_, fun n outcome => Reader.fetches_iff⟩
    split
    · exact Nat.le_refl 1
    · exact Nat.zero_le 1
  · intro hbeyond
    rw [hnone hbeyond, length_ofBytes] at hlength
    omega

/-- Two empty lines, from a source that fails behind them. -/
def feedLog : Bytes := [0x0A, 0x0A]

/-- A log whose failure makes one reading more than it has bytes, and one whose failure lies
behind its end. -/
theorem reader_progresses_feedLog :
    let failing (offset : Nat) :=
      Reader.ofSource (feedLog.source (some (offset, .device "source failed")))
    (∃ after, (failing 2).fill = (.ok true, after) ∧
        ∃ bytes lines, (failing 2).FilledBy after bytes lines) ∧
      (failing 2).readings.length = feedLog.length + 1 ∧
      (∀ offset fault, some (3, Fault.device "source failed") = some (offset, fault) →
        feedLog.length < offset) ∧
      (failing 3).readings.length ≤ feedLog.length := by
  intro failing
  have hbeyond : ∀ offset fault, some (3, Fault.device "source failed") = some (offset, fault) →
      feedLog.length < offset := by
    rintro _ _ ⟨⟩
    decide
  obtain ⟨hfill, -⟩ := reader_progresses feedLog (some (2, .device "source failed"))
  obtain ⟨-, -, -, hnever, -⟩ := reader_progresses feedLog (some (3, .device "source failed"))
  exact ⟨⟨_, rfl, hfill (failing 2) _ rfl⟩, by cbv, hbeyond, hnever hbeyond⟩

end SymbolLog
