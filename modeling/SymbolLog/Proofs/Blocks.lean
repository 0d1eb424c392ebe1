/-
What goes out of an output, and when.

However an output is cut into blocks, a sink holds a beginning of the whole, and it has refused
something exactly if that is not all of it (`Blocks.send_eq`). The cuts decide only what is said
to have failed: there are bytes that go out early and bytes that go out late, and a sink that has
room for the early ones can refuse nothing but the late ones.

Where exactly the early bytes end is a matter of the pieces, and nobody should rely on it. Two
bounds do not depend on them. An output that is shorter than a block is kept back as a whole until
it is complete, with or without a buffer in front of the sink. And no more is ever kept back than
the buffers hold, which is a block for each of them.
-/
import SymbolLog.Blocks
import SymbolLog.Proofs.Text.Utf8

set_option autoImplicit false

namespace SymbolLog

/-! ## What is kept back -/

namespace Block

/-- Pieces that a block has room for do not fill it, unless one of them does so by itself. -/
theorem packFrom_of_le {block : Bytes} {free : Nat} {pieces : List Bytes}
    (hshort : ∀ piece ∈ pieces, piece.length < size) (h : pieces.flatten.length ≤ free) :
    (packFrom block free pieces).1 = [] := by
  induction pieces generalizing block free with
  | nil => rfl
  | cons piece rest ih =>
    rw [List.forall_mem_cons] at hshort
    rw [List.flatten_cons, List.length_append] at h
    have hpiece : piece.length ≤ free := by omega
    rw [packFrom, if_neg (Nat.not_le.2 hshort.1), if_pos hpiece]
    exact ih hshort.2 (by omega)

/-- The last block is not longer than a block. -/
theorem length_last_packFrom_le {block : Bytes} {free : Nat} (pieces : List Bytes)
    (h : block.length + free ≤ size) : (packFrom block free pieces).2.length ≤ size := by
  induction pieces generalizing block free with
  | nil =>
    rw [packFrom, List.length_reverse]
    omega
  | cons piece rest ih =>
    rw [packFrom]
    -- A piece that is as long as a block goes out by itself, one that fits joins the block, and
    -- any other begins the next.
    by_cases hlong : size ≤ piece.length
    · rw [if_pos hlong]
      exact ih (Nat.le_of_eq (Nat.zero_add size))
    rw [if_neg hlong]
    by_cases hfits : piece.length ≤ free
    · rw [if_pos hfits]
      apply ih
      rw [List.length_append, List.length_reverse]
      omega
    · rw [if_neg hfits]
      apply ih
      rw [List.length_reverse]
      omega

theorem length_last_gather_le (pieces : List Bytes) : (gather pieces).2.length ≤ size :=
  length_last_packFrom_le pieces (Nat.le_of_eq (Nat.zero_add size))

/-- The bytes that stay together are no more than four for each character. -/
theorem length_le_of_mem_split {t : Text} {piece : Bytes} (h : piece ∈ split t) :
    piece.length ≤ 4 * t.length := by
  -- A character has four bytes at most.
  have hsize : ∀ s : Text, (Utf8.encode s).length ≤ 4 * s.length := by
    intro s
    induction s with
    | nil => exact Nat.le_refl 0
    | cons c s ih =>
      have hc := c.utf8Size_le_four
      rw [Utf8.length_encode] at ih ⊢
      rw [List.length_cons]
      show c.utf8Size + Utf8.size s ≤ _
      omega
  fun_cases split t with
  | case1 c =>
    obtain ⟨b, -, rfl⟩ := List.mem_map.1 h
    exact Nat.le_add_left 1 3
  | case2 t ht =>
    rw [split, List.mem_singleton] at h
    · rw [h]
      exact hsize t
    · exact ht

end Block

/-! ## Tables -/

namespace Table

/-- No more than two characters of a table belong together. -/
theorem length_le_of_mem_pieces {symbols : List Symbol} {t : Text} (h : t ∈ pieces symbols) :
    t.length ≤ 2 := by
  -- A field is written character by character, with at most one more for a quote.
  have hfield : ∀ field, ∀ t ∈ fieldPieces field, t.length ≤ 2 := by
    intro field t ht
    rw [fieldPieces] at ht
    split at ht
    · rw [List.mem_cons, List.mem_append, List.mem_singleton] at ht
      rcases ht with rfl | ht | rfl
      · exact Nat.le_succ 1
      · obtain ⟨c, -, rfl⟩ := List.mem_map.1 ht
        rw [quotedChar]
        split
        · exact Nat.le_refl 2
        · exact Nat.le_succ 1
      · exact Nat.le_succ 1
    · obtain ⟨c, -, rfl⟩ := List.mem_map.1 ht
      exact Nat.le_succ 1
  have hrecord : ∀ a b c, ∀ t ∈ recordPieces a b c, t.length ≤ 2 := by
    intro a b c t ht
    simp only [recordPieces, List.mem_append, List.mem_cons, List.not_mem_nil, or_false] at ht
    rcases ht with ((ht | rfl | ht) | rfl | ht) | rfl
    · exact hfield _ _ ht
    · exact Nat.le_succ 1
    · exact hfield _ _ ht
    · exact Nat.le_succ 1
    · exact hfield _ _ ht
    · exact Nat.le_refl 2
  rw [pieces, List.mem_append] at h
  rcases h with h | h
  · exact hrecord _ _ _ _ h
  · obtain ⟨s, -, hs⟩ := List.mem_flatMap.1 h
    exact hrecord _ _ _ _ hs

end Table

/-! ## What a sink takes -/

namespace Blocks

/-- What is said to have failed when a sink refuses some of the blocks: if it has room for what
goes out early, it is something that goes out late. -/
def cause (blocks : Blocks) (refusal : Fault → Failure) (sink : Sink) : Failure :=
  if blocks.early.flatten.length ≤ sink.room then .io sink.fault else refusal sink.fault

/-- A sink receives a beginning of the output, as much as it has room for, and refuses the output
if it has no room for all of it. -/
theorem send_eq (blocks : Blocks) (refusal : Fault → Failure) (sink : Sink) :
    blocks.send refusal sink
      = (blocks.bytes.take sink.room,
          if blocks.bytes.length ≤ sink.room then none
          else some (blocks.cause refusal sink)) := by
  have hearly : sink.send blocks.early = (blocks.early.flatten.take sink.room,
      if blocks.early.flatten.length ≤ sink.room
      then some { sink with room := sink.room - blocks.early.flatten.length } else none) :=
    Prod.ext (sink.taken_send blocks.early) (sink.after_send blocks.early)
  rw [send, hearly, cause, bytes, List.length_append, List.take_append]
  generalize blocks.early.flatten = front
  by_cases hfront : front.length ≤ sink.room
  · -- What goes out late finds the room that was left.
    rw [if_pos hfront, if_pos hfront, List.take_of_length_le hfront]
    have hlate := Sink.taken_send { sink with room := sink.room - front.length } blocks.late
    have hafter := Sink.after_send { sink with room := sink.room - front.length } blocks.late
    dsimp only at hlate hafter ⊢
    generalize Sink.send { sink with room := sink.room - front.length } blocks.late = sent
      at hlate hafter
    obtain ⟨taken, after⟩ := sent
    dsimp only at hlate hafter
    rw [hlate, hafter]
    by_cases hrest : blocks.late.flatten.length ≤ sink.room - front.length
    · rw [if_pos hrest, if_pos (by omega)]
    · rw [if_neg hrest, if_neg (by omega)]
  · rw [if_neg hfront, if_neg hfront, if_neg (by omega),
      show sink.room - front.length = 0 by omega, List.take_zero, List.append_nil]

/-- A refusal is put down to the end or to what was being written. -/
theorem cause_eq_or (blocks : Blocks) (refusal : Fault → Failure) (sink : Sink) :
    blocks.cause refusal sink = .io sink.fault ∨ blocks.cause refusal sink = refusal sink.fault := by
  rw [cause]
  split
  · exact .inl rfl
  · exact .inr rfl

/-- Where nothing goes out early, nothing early is refused. -/
theorem cause_of_early_eq_nil {blocks : Blocks} (h : blocks.early = []) (refusal : Fault → Failure)
    (sink : Sink) : blocks.cause refusal sink = .io sink.fault := by
  rw [cause, h]
  exact if_pos (Nat.zero_le _)

end Blocks

/-! ## Formats -/

namespace Format

/-- What goes out is the output as it is printed. -/
theorem bytes_blocks (format : Format) (symbols : List Symbol) :
    (format.blocks symbols).bytes = format.render symbols := by
  cases format with
  | json =>
    show ((Listing.pieces symbols).map Utf8.encode).flatten ++ [] = _
    rw [Utf8.flatten_map_encode, List.append_nil]
    rfl
  | csv =>
    show (Block.pack (Table.pieces symbols)).1.flatten
      ++ [(Block.pack (Table.pieces symbols)).2].flatten = _
    rw [List.flatten_singleton, Block.flatten_pack]
    rfl

theorem send_eq (format : Format) (sink : Sink) (symbols : List Symbol) :
    format.send sink symbols
      = ((format.render symbols).take sink.room,
          if (format.render symbols).length ≤ sink.room then none
          else some ((format.blocks symbols).cause format.refusal sink)) := by
  rw [send, Blocks.send_eq, bytes_blocks]

/-- A sink with room for an output receives its bytes and nothing else. -/
theorem send_of_le {format : Format} {sink : Sink} {symbols : List Symbol}
    (h : (format.render symbols).length ≤ sink.room) :
    format.send sink symbols = (format.render symbols, none) := by
  rw [send_eq, if_pos h, List.take_of_length_le h]

/-- A table that fits in one block is sent when all of it is written. -/
theorem early_csv_of_le {symbols : List Symbol}
    (h : (Format.csv.render symbols).length ≤ Block.size) :
    (Format.csv.blocks symbols).early = [] := by
  have hbytes := Block.flatten_pack (Table.pieces symbols)
  rw [Block.pack, Block.flatten_gather] at hbytes
  rw [blocks, Block.pack, Block.gather]
  apply Block.packFrom_of_le
  · intro piece hpiece
    obtain ⟨t, ht, hsplit⟩ := List.mem_flatMap.1 hpiece
    have hpair := Table.length_le_of_mem_pieces ht
    have hshort := Block.length_le_of_mem_split hsplit
    rw [Block.size]
    omega
  · rw [hbytes]
    exact h

/-- Behind a buffer, an output that is shorter than a block is sent when all of it is written. -/
theorem early_buffered_of_lt {format : Format} {symbols : List Symbol}
    (h : (format.render symbols).length < Block.size) :
    (format.blocks symbols).buffered.early = [] := by
  cases format with
  | json =>
    have hbytes : (Format.json.blocks symbols).early.flatten = Format.json.render symbols :=
      Utf8.flatten_map_encode (Listing.pieces symbols)
    rw [← hbytes] at h
    rw [Blocks.buffered, Block.gather]
    refine Block.packFrom_of_le ?_ (Nat.le_of_lt h)
    intro piece hpiece
    -- A piece is not longer than all of them.
    exact Nat.lt_of_le_of_lt (List.sublist_flatten_of_mem hpiece).length_le h
  | csv =>
    rw [Blocks.buffered, early_csv_of_le (Nat.le_of_lt h)]
    rfl

/-- What is kept back until the output is complete are two blocks at most. -/
theorem length_late_buffered_le (format : Format) (symbols : List Symbol) :
    (format.blocks symbols).buffered.late.flatten.length ≤ 2 * Block.size := by
  have hbuffer := Block.length_last_gather_le (format.blocks symbols).early
  have hlate : (format.blocks symbols).late.flatten.length ≤ Block.size := by
    cases format with
    | json => exact Nat.zero_le _
    | csv =>
      rw [blocks, Block.pack, List.flatten_singleton]
      exact Block.length_last_gather_le _
  rw [Blocks.buffered, List.flatten_cons, List.length_append]
  omega

end Format

end SymbolLog
