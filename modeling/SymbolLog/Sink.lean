/-
Writing to a sink that may fill up.

A sink takes an output piece by piece and may refuse one; then nothing more is
sent, and what it has taken is a beginning of the whole. Where the pieces end
makes no difference to that, so whoever collects pieces before sending them on
changes only when a sink is sent something, and not what it takes.
-/
import SymbolLog.Fault

set_option autoImplicit false

namespace SymbolLog

/-- A sink that takes so many more bytes and then fails. -/
structure Sink where
  room : Nat
  /-- Why it takes no more. A write that is merely interrupted is tried again and is
  no failure here, and a sink that has failed once fails at every later write. -/
  fault : Fault

/-- The bytes that a sink takes of some pieces, and the sink after them unless it
has refused one. -/
def Sink.send (sink : Sink) : List Bytes → Bytes × Option Sink
  | [] => ([], some sink)
  | piece :: rest =>
    if piece.length ≤ sink.room then
      let (taken, after) := Sink.send { sink with room := sink.room - piece.length } rest
      (piece ++ taken, after)
    else (piece.take sink.room, none)

/-- A sink takes the bytes that it has room for, however they are cut into pieces. -/
theorem Sink.taken_send (sink : Sink) (pieces : List Bytes) :
    (sink.send pieces).1 = pieces.flatten.take sink.room := by
  induction pieces generalizing sink with
  | nil => simp [send]
  | cons piece rest ih =>
    by_cases h : piece.length ≤ sink.room
    · simp [send, h, ih, List.take_append, List.take_of_length_le h]
    · simp [send, h, List.take_append, show sink.room - piece.length = 0 by omega]

/-- A sink refuses a piece exactly when the pieces are more than it has room for. -/
theorem Sink.after_send (sink : Sink) (pieces : List Bytes) :
    (sink.send pieces).2 =
      if pieces.flatten.length ≤ sink.room
      then some { sink with room := sink.room - pieces.flatten.length } else none := by
  induction pieces generalizing sink with
  | nil => simp [send]
  | cons piece rest ih =>
    by_cases h : piece.length ≤ sink.room
    · simp only [send, h, if_true, ih, List.flatten_cons, List.length_append]
      by_cases h' : rest.flatten.length ≤ sink.room - piece.length
      · rw [if_pos h', if_pos (by omega), Nat.sub_sub]
      · rw [if_neg h', if_neg (by omega)]
    · have : ¬ (piece ++ rest.flatten).length ≤ sink.room := by
        rw [List.length_append]; omega
      simp only [send, h, if_false, List.flatten_cons, this]

end SymbolLog
