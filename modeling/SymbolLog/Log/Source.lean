/-
Where the bytes of a log come from.

A source may fail between any two bytes and go on afterwards, so it is a sequence
of signals, each a byte or a failure, and not just a sequence of bytes. Cutting
off the next chunk, the bytes up to a line feed, is the only operation on it.
What was read of a chunk before a failure is lost with it: the bytes after the
failure begin a chunk of their own.
-/
import SymbolLog.Fault

set_option autoImplicit false

namespace SymbolLog

/-- What a source gives next. -/
inductive Signal where
  | byte (b : UInt8)
  /-- A failure that the reader is told of. A read that is only interrupted is tried
  again before anyone is told, so it is none. -/
  | failure (fault : Fault)

/-- Everything that a source will give. -/
abbrev Source := List Signal

namespace Source

/-- A source that gives some bytes and never fails. -/
def ofBytes (bytes : Bytes) : Source := bytes.map .byte

/-- A source that fails once, when `offset` bytes have been given. It never fails if
there are fewer bytes than that. -/
def failingAt (offset : Nat) (fault : Fault) (bytes : Bytes) : Source :=
  if offset ≤ bytes.length then
    ofBytes (bytes.take offset) ++ .failure fault :: ofBytes (bytes.drop offset)
  else ofBytes bytes

/-- A directory can be opened and refuses to be read. It refuses as often as it is
read; once is enough here, where an extraction stops at the first failure. -/
def ofDirectory : Source := [.failure .isDirectory]

/-- Why a chunk ends, with the rest of the source. -/
inductive ChunkEnd where
  | lineFeed (rest : Source)
  | failure (fault : Fault) (rest : Source)
  | sourceEnd

def lineFeed : UInt8 := 0x0A

def carriageReturn : UInt8 := 0x0D

/-- The bytes of the next chunk, without a line feed at its end, and why it ends. -/
def nextChunk : Source → Bytes × ChunkEnd
  | [] => ([], .sourceEnd)
  | .failure fault :: rest => ([], .failure fault rest)
  | .byte b :: rest =>
    if b = lineFeed then ([], .lineFeed rest)
    else
      let (bytes, stop) := nextChunk rest
      (b :: bytes, stop)

theorem lineFeed_not_mem_nextChunk (source : Source) : lineFeed ∉ (nextChunk source).1 := by
  induction source with
  | nil => simp [nextChunk]
  | cons signal source ih =>
    cases signal with
    | failure fault => simp [nextChunk]
    | byte b =>
      by_cases h : b = lineFeed
      · simp [nextChunk, h]
      · simp [nextChunk, h, ih, Ne.symm h]

def ChunkEnd.rest : ChunkEnd → Source
  | .lineFeed rest => rest
  | .failure _ rest => rest
  | .sourceEnd => []

/-- The failure that ends a chunk, if one does. -/
def ChunkEnd.failure? : ChunkEnd → Option Fault
  | .failure fault _ => some fault
  | _ => none

/-- What a source still held when the bytes of the next chunk had been taken off it. -/
def ChunkEnd.signals : ChunkEnd → Source
  | .lineFeed rest => .byte Source.lineFeed :: rest
  | .failure fault rest => .failure fault :: rest
  | .sourceEnd => []

/-- A chunk that has been cut off a source: its bytes without the line feed, or the
failure that lost it. -/
structure Piece where
  bytes : Bytes
  failure : Option Fault

/-- A chunk takes something off every source that has anything left. -/
theorem length_rest_nextChunk_lt (signal : Signal) (source : Source) :
    (nextChunk (signal :: source)).2.rest.length < (signal :: source).length := by
  induction source generalizing signal with
  | nil =>
    cases signal with
    | failure fault => simp [nextChunk, ChunkEnd.rest]
    | byte b => by_cases h : b = lineFeed <;> simp [nextChunk, ChunkEnd.rest, h]
  | cons next source ih =>
    cases signal with
    | failure fault => simp [nextChunk, ChunkEnd.rest]
    | byte b =>
      by_cases h : b = lineFeed
      · simp [nextChunk, ChunkEnd.rest, h]
      · have := ih next
        simp only [nextChunk, h, if_false, List.length_cons] at this ⊢
        omega

end Source

end SymbolLog
