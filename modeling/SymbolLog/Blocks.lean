/-
When the bytes of an output go out.

Some bytes of an output go out while it is still being written, and some only when
all of it is. A refusal of the one is a failure of the format and a refusal of the
other a failure of the device, so the two are kept apart.

A listing goes out as it is written. A table is collected in blocks of a fixed
size: a full block goes out when the next piece has no room in it, the last block
at the end, and what belongs together is never spread over two blocks. A file has
a buffer of the same size in front of it, behind which even the small pieces of a
listing become blocks, and whatever the buffer still holds when the output is
complete goes out at the end.
-/
import SymbolLog.Failure
import SymbolLog.Sink

set_option autoImplicit false

namespace SymbolLog

/-! ## Collecting pieces -/

namespace Block

def size : Nat := 8192

/-- The bytes that stay together: a character on its own may be spread over two
blocks, several may not. -/
def split : Text → List Bytes
  | [c] => (Utf8.encode [c]).map fun b => [b]
  | t => [Utf8.encode t]

theorem flatten_split (t : Text) : (split t).flatten = Utf8.encode t := by
  fun_cases split t with
  | case1 c => simp [← List.flatMap_def]
  | case2 t _ => simp

/-- Packs pieces into blocks: the full ones and the last. `block` holds the current
block, last byte first, and `free` is what it has room for. A piece that would fill
a block is not collected but goes out by itself. -/
def packFrom (block : Bytes) (free : Nat) : List Bytes → List Bytes × Bytes
  | [] => ([], block.reverse)
  | piece :: rest =>
    if size ≤ piece.length then
      let (full, last) := packFrom [] size rest
      (block.reverse :: piece :: full, last)
    else if piece.length ≤ free then
      packFrom (piece.reverse ++ block) (free - piece.length) rest
    else
      let (full, last) := packFrom piece.reverse (size - piece.length) rest
      (block.reverse :: full, last)

theorem flatten_packFrom (block : Bytes) (free : Nat) (pieces : List Bytes) :
    (packFrom block free pieces).1.flatten ++ (packFrom block free pieces).2 =
      block.reverse ++ pieces.flatten := by
  induction pieces generalizing block free with
  | nil => simp [packFrom]
  | cons piece rest ih =>
    by_cases hlong : size ≤ piece.length
    · simp [packFrom, hlong, ih]
    · by_cases h : piece.length ≤ free
      · simp [packFrom, hlong, h, ih]
      · simp [packFrom, hlong, h, ih]

/-- Packs pieces into blocks, beginning with an empty one. -/
def gather (pieces : List Bytes) : List Bytes × Bytes := packFrom [] size pieces

/-- Packed into blocks, pieces are the same bytes. -/
theorem flatten_gather (pieces : List Bytes) :
    (gather pieces).1.flatten ++ (gather pieces).2 = pieces.flatten :=
  flatten_packFrom [] size pieces

/-- Packs the pieces of a text into blocks. -/
def pack (pieces : List Text) : List Bytes × Bytes := gather (pieces.flatMap split)

/-- The blocks of a text are the text. -/
theorem flatten_pack (pieces : List Text) :
    (pack pieces).1.flatten ++ (pack pieces).2 = Utf8.encode pieces.flatten := by
  rw [pack, flatten_gather]
  induction pieces with
  | nil => rfl
  | cons t rest ih => simpa [flatten_split] using ih

end Block

/-! ## Sending blocks -/

/-- An output, cut into what goes out at a time. -/
structure Blocks where
  /-- What goes out while the output is being written. -/
  early : List Bytes
  /-- What goes out when all of it has been written. -/
  late : List Bytes

namespace Blocks

/-- All that goes out, early or late. -/
def bytes (blocks : Blocks) : Bytes := blocks.early.flatten ++ blocks.late.flatten

/-- The same output behind a buffer. Of what goes out early, the buffer keeps the end
until the output is complete. -/
def buffered (blocks : Blocks) : Blocks :=
  let gathered := Block.gather blocks.early
  { early := gathered.1, late := gathered.2 :: blocks.late }

/-- A buffer neither adds nor loses anything. -/
@[simp] theorem bytes_buffered (blocks : Blocks) : blocks.buffered.bytes = blocks.bytes := by
  rw [buffered, bytes, bytes, List.flatten_cons, ← List.append_assoc, Block.flatten_gather]

/-- Sends blocks to a sink: the bytes that it took, and why it took no more. What is
refused early has failed for a reason of its own. -/
def send (blocks : Blocks) (refusal : Fault → Failure) (sink : Sink) : Bytes × Option Failure :=
  match sink.send blocks.early with
  | (taken, none) => (taken, some (refusal sink.fault))
  | (taken, some sink) =>
    match sink.send blocks.late with
    | (rest, none) => (taken ++ rest, some (.io sink.fault))
    | (rest, some _) => (taken ++ rest, none)

end Blocks

/-! ## Formats -/

namespace Format

/-- How a format goes out to a sink. -/
def blocks : Format → List Symbol → Blocks
  | .json, symbols => { early := (Listing.pieces symbols).map Utf8.encode, late := [] }
  | .csv, symbols =>
    let packed := Block.pack (Table.pieces symbols)
    { early := packed.1, late := [packed.2] }

/-- How a format fails that is refused while it is being written. -/
def refusal : Format → Fault → Failure
  | .json => .listing
  | .csv => .record

/-- Writes symbols to a sink: the bytes that it took, and why it took no more. -/
def send (format : Format) (sink : Sink) (symbols : List Symbol) : Bytes × Option Failure :=
  (format.blocks symbols).send format.refusal sink

end Format

end SymbolLog
