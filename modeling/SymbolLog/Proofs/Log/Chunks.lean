/-
What a reader hands out, chunk by chunk.

The reader carries a queue and a count along, and its readings are defined by a
recursion on both. Here they are taken apart. A source is cut into chunks once and
for all (`Source.cut`), each chunk yields lines or a fault on its own
(`Piece.yield`), and the readings are what the chunks yield with the lines numbered
through (`readings_eq`). A queue is nothing but the lines of a chunk that has been
cut off already, so a reader in the middle of its log is covered as well.
-/
import SymbolLog.Log.Reader

set_option autoImplicit false

namespace SymbolLog

/-! ## Cutting a source -/

namespace Source

theorem ofBytes_injective {a b : Bytes} (h : ofBytes a = ofBytes b) : a = b := by
  refine (List.map_inj_right ?_).1 h
  intro x y hxy
  exact Signal.byte.inj hxy

/-- Only a directory begins with a failure. -/
theorem ofBytes_ne_ofDirectory {bytes : Bytes} : ofBytes bytes ≠ ofDirectory := by
  cases bytes with
  | nil => exact nofun
  | cons b bytes => exact nofun

/-- Puts a byte at the front of the first of some chunks. A byte before the end of
the source is a chunk of its own. -/
def consByte (b : UInt8) : List Piece → List Piece
  | [] => [⟨[b], none⟩]
  | piece :: rest => { piece with bytes := b :: piece.bytes } :: rest

/-- All chunks of a source, in one pass over its signals. -/
def cut : Source → List Piece
  | [] => []
  | .failure fault :: rest => ⟨[], some fault⟩ :: cut rest
  | .byte b :: rest => if b = lineFeed then ⟨[], none⟩ :: cut rest else consByte b (cut rest)

/-- The next chunk is the first of the chunks, and the others are those of the rest. -/
theorem cut_cons (signal : Signal) (source : Source) :
    cut (signal :: source)
      = ⟨(nextChunk (signal :: source)).1, (nextChunk (signal :: source)).2.failure?⟩
          :: cut (nextChunk (signal :: source)).2.rest := by
  -- The signal in front decides, unless it is a byte within a chunk; then the chunk goes on with
  -- the next one.
  induction source generalizing signal with
  | nil =>
    cases signal with
    | failure fault => rfl
    | byte b =>
      by_cases hb : b = lineFeed
      · rw [cut, if_pos hb, nextChunk, if_pos hb]
        rfl
      · rw [cut, if_neg hb, nextChunk, if_neg hb]
        rfl
  | cons next source ih =>
    cases signal with
    | failure fault => rfl
    | byte b =>
      by_cases hb : b = lineFeed
      · rw [cut, if_pos hb, nextChunk, if_pos hb]
        rfl
      · rw [cut, if_neg hb, nextChunk, if_neg hb, ih next]
        rfl

end Source

/-! ## What a chunk yields -/

namespace Reading

/-- Lines as readings, with the numbers that follow `count`. -/
def ofLines (count : Nat) (lines : List Text) : List Reading :=
  (lines.zipIdx (count + 1)).map fun line => .line line.2 line.1

/-- What some chunks yield as readings, with the lines numbered through. -/
def ofYields (count : Nat) : List (Except Fault (List Text)) → List Reading
  | [] => []
  | .error f :: rest => .fault f :: ofYields count rest
  | .ok lines :: rest => ofLines count lines ++ ofYields (count + lines.length) rest

/-- What one chunk yields as readings, and then those that follow from the next number. -/
def ofYield (count : Nat) (next : Nat → List Reading) : Except Fault (List Text) → List Reading
  | .error f => .fault f :: next count
  | .ok lines => ofLines count lines ++ next (count + lines.length)

theorem ofYields_cons (count : Nat) (first : Except Fault (List Text))
    (rest : List (Except Fault (List Text))) :
    ofYields count (first :: rest) = ofYield count (fun count => ofYields count rest) first := by
  cases first with
  | error f => rfl
  | ok lines => rfl

theorem ofLines_cons (count : Nat) (t : Text) (lines : List Text) :
    ofLines count (t :: lines) = .line (count + 1) t :: ofLines (count + 1) lines := by
  rw [ofLines, List.zipIdx_cons, List.map_cons]
  rfl

theorem ofLines_append (count : Nat) (first second : List Text) :
    ofLines count (first ++ second)
      = ofLines count first ++ ofLines (count + first.length) second := by
  rw [ofLines, List.zipIdx_append, List.map_append, Nat.add_right_comm]
  rfl

end Reading

namespace Reader

theorem readings_of_next?_none {r : Reader} (h : r.next? = none) : r.readings = [] := by
  rw [readings]
  split
  · rfl
  · next heq => rw [h] at heq; cases heq

theorem readings_of_next?_some {r after : Reader} {reading : Reading}
    (h : r.next? = some (reading, after)) : r.readings = reading :: after.readings := by
  rw [readings]
  split
  · next heq => rw [h] at heq; cases heq
  · next first rest heq =>
    rw [h] at heq
    obtain ⟨rfl, rfl⟩ := Prod.mk.inj (Option.some.inj heq)
    rfl

/-- What is queued comes first, whatever the source still holds. -/
theorem readings_queue (source : Source) (queue : List Text) (count : Nat) :
    readings ⟨source, queue, count⟩
      = Reading.ofLines count queue ++ readings ⟨source, [], count + queue.length⟩ := by
  induction queue generalizing count with
  | nil => rfl
  | cons t queue ih =>
    have hnext : next? ⟨source, t :: queue, count⟩
        = some (.line (count + 1) t, ⟨source, queue, count + 1⟩) := rfl
    rw [readings_of_next?_some hnext, ih, Reading.ofLines_cons, List.cons_append,
      List.length_cons, Nat.add_assoc, Nat.add_comm 1]

/-- A chunk that has been read yields its lines, or the fault for which it has none. -/
theorem readings_readChunk {source : Source} {count : Nat} (bytes : Bytes) (rest : Source)
    (h : next? ⟨source, [], count⟩ = some (readChunk ⟨source, [], count⟩ bytes rest)) :
    readings ⟨source, [], count⟩
      = Reading.ofYield count (fun count => readings ⟨rest, [], count⟩)
          (Source.Piece.yield ⟨bytes, none⟩) := by
  rw [Source.Piece.yield]
  unfold readChunk at h
  cases hlines : chunkLines bytes with
  | error fault =>
    rw [hlines] at h
    exact readings_of_next?_some h
  | ok lines =>
    rw [hlines] at h
    -- The first line is handed out at once, the others are queued.
    rw [readings_of_next?_some h, readings_queue]
    show _ = Reading.ofLines count (lines.1 :: lines.2) ++ readings ⟨rest, [], _⟩
    rw [Reading.ofLines_cons, List.cons_append, List.length_cons, Nat.add_assoc, Nat.add_comm 1]

/-- With nothing queued, the next chunk decides: it is lost, or its lines are handed
out. -/
theorem readings_chunk (signal : Signal) (source : Source) (count : Nat) :
    readings ⟨signal :: source, [], count⟩
      = Reading.ofYield count
          (fun count => readings ⟨(Source.nextChunk (signal :: source)).2.rest, [], count⟩)
          (Source.Piece.yield ⟨(Source.nextChunk (signal :: source)).1,
            (Source.nextChunk (signal :: source)).2.failure?⟩) := by
  cases hchunk : Source.nextChunk (signal :: source) with
  | mk bytes stop =>
    cases stop with
    | failure f rest =>
      -- What had been read of this chunk is lost with it.
      have hnext : next? ⟨signal :: source, [], count⟩ = some (.fault f, ⟨rest, [], count⟩) := by
        simp only [next?, hchunk]
      exact readings_of_next?_some hnext
    | lineFeed rest =>
      refine readings_readChunk bytes rest ?_
      simp only [next?, hchunk, Source.ChunkEnd.rest]
    | sourceEnd =>
      refine readings_readChunk bytes [] ?_
      simp only [next?, hchunk, Source.ChunkEnd.rest]

/-- **Readings are what the chunks yield**, after the lines that are queued, with the
lines numbered through. -/
theorem readings_eq (r : Reader) :
    r.readings
      = Reading.ofLines r.count r.queue
          ++ Reading.ofYields (r.count + r.queue.length) (r.source.cut.map Source.Piece.yield) := by
  obtain ⟨source, queue, count⟩ := r
  rw [readings_queue]
  congr 1
  generalize count + queue.length = count
  -- A chunk takes something off the source, so its length is the measure.
  induction hn : source.length using Nat.strongRecOn generalizing source count with
  | _ n ih =>
    cases source with
    | nil => exact readings_of_next?_none rfl
    | cons signal source =>
      have hshorter := Source.length_rest_nextChunk_lt signal source
      rw [readings_chunk, Source.cut_cons, List.map_cons, Reading.ofYields_cons]
      -- Both sides begin with what the first chunk yields; they go on from the same number.
      congr 1
      funext count
      exact ih _ (hn ▸ hshorter) _ _ rfl

end Reader

end SymbolLog
