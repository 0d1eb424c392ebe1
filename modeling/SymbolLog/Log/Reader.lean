/-
Reading a log line by line.

A line ends at a line feed, at a carriage return or at the two together. The
reader first cuts the source into chunks at line feeds, takes one carriage return
off the end of a chunk, and then splits the chunk at the carriage returns left in
it. A chunk is decoded as a whole, so bytes that are no text cost the chunk they
stand in and nothing else. Lines are numbered as they are handed out; a fault
takes no number.

Every reading either takes a line off the queue or cuts a chunk off the source,
so a reader comes to its end whatever the source does. One chunk always has a
line, even if that is empty, or else a fault, so a reading never takes two; the
loop that would go on to a second is at the end (`Reader.Fetches`).
-/
import SymbolLog.Log.Source

set_option autoImplicit false

namespace SymbolLog

/-! ## Chunks -/

/-- The bytes of a chunk without a carriage return at their end. -/
def dropFinalReturn (bytes : Bytes) : Bytes :=
  if bytes.getLast? = some Source.carriageReturn then bytes.dropLast else bytes

/-- The lines of a text that is split at its carriage returns: the first, which is
always there, and the others. -/
def splitAtReturns : Text → Text × List Text
  | [] => ([], [])
  | c :: t =>
    let (first, others) := splitAtReturns t
    if c = '\r' then ([], first :: others) else (c :: first, others)

/-- Joined by carriage returns, the lines are the text again. -/
theorem intercalate_splitAtReturns (t : Text) :
    List.intercalate ['\r'] ((splitAtReturns t).1 :: (splitAtReturns t).2) = t := by
  induction t with
  | nil => rfl
  | cons c t ih =>
    by_cases h : c = '\r'
    · simp [splitAtReturns, h, List.intercalate_cons_cons, ih]
    · simp only [splitAtReturns, h, if_false]
      generalize splitAtReturns t = lines at ih
      obtain ⟨first, others⟩ := lines
      cases others <;> simp_all [List.intercalate_cons_cons]

theorem return_not_mem_splitAtReturns (t : Text) :
    ∀ line ∈ (splitAtReturns t).1 :: (splitAtReturns t).2, '\r' ∉ line := by
  induction t with
  | nil => simp [splitAtReturns]
  | cons c t ih =>
    by_cases h : c = '\r'
    · simpa [splitAtReturns, h] using ih
    · simpa [splitAtReturns, h, Ne.symm h] using ih

def chunkLines (bytes : Bytes) : Except Fault (Text × List Text) :=
  match Utf8.decode (dropFinalReturn bytes) with
  | .ok t => .ok (splitAtReturns t)
  | .error cause => .error (.malformedText cause)

/-- The lines of a chunk that has been cut off. A failure of the source loses them all. -/
def Source.Piece.yield (piece : Source.Piece) : Except Fault (List Text) :=
  match piece.failure with
  | some fault => .error fault
  | none => (chunkLines piece.bytes).map fun lines => lines.1 :: lines.2

/-! ## The reader -/

/-- What a reader hands out. -/
inductive Reading where
  | line (number : Nat) (t : Text)
  /-- A failure of the source, or a chunk that is no text. -/
  | fault (f : Fault)

/-- A reader somewhere in a log. -/
structure Reader where
  source : Source
  /-- The lines of the last chunk that are still to be handed out. -/
  queue : List Text
  count : Nat

namespace Reader

def ofSource (source : Source) : Reader := { source, queue := [], count := 0 }

/-- The next reading of a chunk that has been cut off, and the reader after it. -/
def readChunk (r : Reader) (bytes : Bytes) (rest : Source) : Reading × Reader :=
  match chunkLines bytes with
  | .ok (first, others) =>
    (.line (r.count + 1) first, { source := rest, queue := others, count := r.count + 1 })
  | .error f => (.fault f, { source := rest, queue := [], count := r.count })

/-- The next reading and the reader after it, or nothing at the end of the log. -/
def next? (r : Reader) : Option (Reading × Reader) :=
  match r.queue with
  | t :: queue => some (.line (r.count + 1) t, { r with queue, count := r.count + 1 })
  | [] =>
    match r.source with
    | [] => none
    | _ :: _ =>
      match Source.nextChunk r.source with
      | (_, .failure f rest) => some (.fault f, { source := rest, queue := [], count := r.count })
      | (bytes, stop) => some (r.readChunk bytes stop.rest)

/-- A reading makes the source shorter, or leaves it and makes the queue shorter. -/
theorem next?_decreases {r after : Reader} {reading : Reading}
    (h : r.next? = some (reading, after)) :
    after.source.length < r.source.length ∨
      after.source.length = r.source.length ∧ after.queue.length < r.queue.length := by
  obtain ⟨source, queue, count⟩ := r
  cases queue with
  | cons t queue =>
    simp only [next?, Option.some.injEq, Prod.mk.injEq] at h
    obtain ⟨-, rfl⟩ := h
    simp
  | nil =>
    cases source with
    | nil => simp [next?] at h
    | cons signal source =>
      left
      have shorter := Source.length_rest_nextChunk_lt signal source
      simp only [next?] at h
      split at h
      · next f rest heq =>
        simp only [Option.some.injEq, Prod.mk.injEq] at h
        obtain ⟨-, rfl⟩ := h
        simpa [heq, Source.ChunkEnd.rest] using shorter
      · next bytes stop _ heq =>
        simp only [readChunk, Option.some.injEq] at h
        split at h <;>
          · simp only [Prod.mk.injEq] at h
            obtain ⟨-, rfl⟩ := h
            simpa [heq] using shorter

/-- Everything that a reader hands out from here to the end of the log. -/
def readings (r : Reader) : List Reading :=
  match h : r.next? with
  | none => []
  | some (reading, after) =>
    have := next?_decreases h
    reading :: after.readings
termination_by (r.source.length, r.queue.length)
decreasing_by
  rcases this with shorter | ⟨same, shorter⟩
  · exact Prod.Lex.left _ _ shorter
  · rw [same]; exact Prod.Lex.right _ shorter

/-- The reader after some readings, or at the end of the log if there are fewer. -/
def skip : Nat → Reader → Reader
  | 0, r => r
  | n + 1, r =>
    match r.next? with
    | none => r
    | some (_, after) => skip n after

/-! ## The loop behind a reading

A reader goes on filling its queue for as long as nothing is queued. `next?` fills
it once at most; here the loop is written out, with the number of times that it
fills the queue.
-/

/-- Queues the lines of the next chunk and tells whether there was a chunk. -/
def fill (r : Reader) : Except Fault Bool × Reader :=
  match r.source with
  | [] => (.ok false, r)
  | _ :: _ =>
    let (bytes, stop) := Source.nextChunk r.source
    match Source.Piece.yield ⟨bytes, stop.failure?⟩ with
    | .error f => (.error f, { r with source := stop.rest })
    | .ok lines => (.ok true, { r with source := stop.rest, queue := r.queue ++ lines })

/-- What is handed out next, with the reader after it; a reader at its end stays as it is. -/
def fetch (r : Reader) : Option Reading × Reader :=
  match r.next? with
  | none => (none, r)
  | some (reading, after) => (some reading, after)

/-- The loop behind a reading: the queue is filled for as long as it is empty. It is filled so
many times, and the outcome is a reading, or none at the end of the log, and the reader after
it. -/
inductive Fetches : Reader → Nat → Option Reading × Reader → Prop
  | queued {source : Source} {t : Text} {queue : List Text} {count : Nat} :
    Fetches ⟨source, t :: queue, count⟩ 0
      (some (.line (count + 1) t), ⟨source, queue, count + 1⟩)
  | filled {r next : Reader} {fills : Nat} {outcome : Option Reading × Reader}
    (hempty : r.queue = []) (hfill : r.fill = (.ok true, next))
    (hrest : Fetches next fills outcome) : Fetches r (fills + 1) outcome
  | ended {r next : Reader} (hempty : r.queue = []) (hfill : r.fill = (.ok false, next)) :
    Fetches r 1 (none, next)
  | failed {r next : Reader} {f : Fault} (hempty : r.queue = [])
    (hfill : r.fill = (.error f, next)) : Fetches r 1 (some (.fault f), next)

end Reader

end SymbolLog
