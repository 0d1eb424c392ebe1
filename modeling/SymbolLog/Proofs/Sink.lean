/-
What a sink holds when it fills up.

A sink is sent an output in pieces, and the first piece that it has no room for is the last thing
it is sent. How the pieces are cut does not matter: what it has taken is a beginning of the whole,
and it has refused something exactly if that is not all of it. For a listing, all of which goes out
early, this is the whole story. A table is collected in blocks, and a block is a piece like any
other, so the same is true of it; but where the blocks end decides which of two failures is
reported. As long as a block is not full nothing is sent before the end, and a table that fits in
one block can only be refused there (`early_csv_of_le`).
-/
import SymbolLog.Proofs.Blocks
import Mathlib

set_option autoImplicit false

namespace SymbolLog

namespace Format

/-- **A sink that fills up holds a beginning of the output, and the failure is reported.** A sink
with room for the output takes it. Any other takes as many bytes as it has room for, from the
first on, and the call fails, with a failure of its own for a listing; a table is refused while
its records are written or at the end, and only at the end if it fits in one block. -/
theorem send_take (format : Format) (symbols : List Symbol) (sink : Sink) :
    let full := format.render symbols
    ((format.send sink symbols).2 = none ↔ full.length ≤ sink.room) ∧
      (full.length ≤ sink.room → format.send sink symbols = (full, none)) ∧
      (sink.room < full.length →
        ∃ failure, format.send sink symbols = (full.take sink.room, some failure) ∧
          match format with
          | .json => failure = .listing sink.fault
          | .csv => (failure = .io sink.fault ∨ failure = .record sink.fault) ∧
              (full.length ≤ 8192 → failure = .io sink.fault)) := by
  intro full
  rw [send_eq]
  refine ⟨by simp [full], ?_, ?_⟩
  · intro hroom
    rw [if_pos hroom, List.take_of_length_le hroom]
  · intro hfull
    rw [if_neg (Nat.not_le.2 hfull)]
    refine ⟨_, rfl, ?_⟩
    cases format with
    | json =>
      -- All of a listing goes out early, so a sink that is too small refuses it there.
      have hbytes : (Format.json.blocks symbols).early.flatten = full :=
        Utf8.flatten_map_encode (Listing.pieces symbols)
      dsimp only
      rw [Blocks.cause, hbytes, if_neg (Nat.not_le.2 hfull)]
      rfl
    | csv =>
      refine ⟨Blocks.cause_eq_or _ _ _, ?_⟩
      intro hsize
      exact Blocks.cause_of_early_eq_nil (early_csv_of_le hsize) _ _

/-- A table and a listing that are cut off, the one within a quoted field and the other within
an escape. -/
theorem send_take_cutSymbol :
    let symbols := [Symbol.mk ['1'] "a,é".toList []]
    let fault := Fault.device "sink full"
    Format.csv.send ⟨26, fault⟩ symbols
        = ("ID,Name,Description\r\n1,\"a,".toUTF8.toList, some (.io fault)) ∧
      Format.json.send ⟨41, fault⟩ symbols
        = ("[\n  \x7b\n    \"id\": \"1\",\n    \"name\": \"a,\\u00e".toUTF8.toList,
            some (.listing fault)) := by
  intro symbols fault
  have htable : (Format.csv.render symbols).take 26
      = "ID,Name,Description\r\n1,\"a,".toUTF8.toList := by cbv
  have hlisting : (Format.json.render symbols).take 41
      = "[\n  \x7b\n    \"id\": \"1\",\n    \"name\": \"a,\\u00e".toUTF8.toList := by cbv
  have htableLength : (Format.csv.render symbols).length = 32 := by cbv
  have hlistingLength : (Format.json.render symbols).length = 72 := by cbv
  obtain ⟨_, htableSend, -, hend⟩ := (send_take .csv symbols ⟨26, fault⟩).2.2
    (by rw [htableLength]; decide)
  obtain ⟨_, hlistingSend, rfl⟩ := (send_take .json symbols ⟨41, fault⟩).2.2
    (by rw [hlistingLength]; decide)
  rw [hend (by rw [htableLength]; decide), htable] at htableSend
  rw [hlisting] at hlistingSend
  exact ⟨htableSend, hlistingSend⟩

end Format

end SymbolLog
