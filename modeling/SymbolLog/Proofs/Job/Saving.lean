/-
How an output comes out that is written to a file.

There are three ways, and the path and the room at its place decide between them (`Saves`). The
path may be refused, and then nothing has happened. The file may be cut off: it has been created,
it holds as much of the output as there was room for, and the call says why it holds no more. Or
it is whole.

Between the file and whoever writes there are buffers, so the refusal may be noticed long after the
byte that had no room was written. That changes neither what the file holds nor whether the call
fails, only what it is said to have failed at, and this is known within two bounds
(`Format.MayFail`): short of one block it is always the end, and two blocks before the end it never
is.
-/
import SymbolLog.Job
import SymbolLog.Proofs.Blocks
import SymbolLog.Proofs.FileSystem

set_option autoImplicit false

namespace SymbolLog

/-! ## What a refusal is put down to -/

/-- What a format may say to have failed at when a sink has less room than the output is long: at
the end, or at what it was writing. -/
structure Format.MayFail (format : Format) (length : Nat) (sink : Sink) (cause : Failure) :
    Prop where
  kind : cause = .io sink.fault ∨ cause = format.refusal sink.fault
  /-- An output shorter than a block has not been sent before its end. -/
  short : length < 8192 → cause = .io sink.fault
  /-- No more than two blocks are left for the end. -/
  long : sink.room + 2 * 8192 < length → cause = format.refusal sink.fault

/-- What the buffers bring about is within the bounds. -/
theorem Format.mayFail_cause (format : Format) (symbols : List Symbol) (sink : Sink) :
    format.MayFail (format.render symbols).length sink
      ((format.blocks symbols).buffered.cause format.refusal sink) where
  kind := Blocks.cause_eq_or _ _ _
  short := fun h => Blocks.cause_of_early_eq_nil (early_buffered_of_lt h) _ _
  long := by
    intro h
    have hlate := length_late_buffered_le format symbols
    have hbytes := Blocks.bytes_buffered (format.blocks symbols)
    rw [bytes_blocks] at hbytes
    rw [← hbytes, Blocks.bytes, List.length_append] at h
    rw [Block.size] at hlate
    rw [Blocks.cause, if_neg (by omega)]

/-! ## One output -/

/-- How the writing of an output ends, and the file system after it. -/
inductive Saves (fs : FileSystem) (format : Format) (path : String) (symbols : List Symbol) :
    Except Failure Unit → FileSystem → Prop where
  /-- The file cannot be created. -/
  | refused {fault : Fault} (hcreate : fs.createAt path = .error fault) :
    Saves fs format path symbols (.error (.unwritable format path (.io fault))) fs
  /-- The file is created, or emptied, and has not room for all of the output. -/
  | cut {place : Place} {sink : Sink} {cause : Failure} (hcreate : fs.createAt path = .ok place)
    (hsink : fs.sink place = some sink) (hroom : sink.room < (format.render symbols).length)
    (hcause : format.MayFail (format.render symbols).length sink cause) :
    Saves fs format path symbols (.error (.unwritable format path cause))
      (fs.set place (.file ((format.render symbols).take sink.room)))
  /-- The file is created, or emptied, and written from the first to the last symbol. -/
  | whole {place : Place} (hcreate : fs.createAt path = .ok place)
    (hroom : fs.Fits place (format.render symbols)) :
    Saves fs format path symbols (.ok ()) (fs.set place (.file (format.render symbols)))

section
variable {fs : FileSystem} {format : Format} {path : String} {symbols : List Symbol}

/-- Where there is room for all of an output, every block is taken. -/
theorem writeTo_of_fits {place : Place} (h : fs.Fits place (format.render symbols)) :
    format.writeTo FileSystem.store place symbols (fs.set place (.file []))
      = (.ok (), fs.set place (.file (format.render symbols))) := by
  have hbytes := Blocks.bytes_buffered (format.blocks symbols)
  rw [Format.bytes_blocks, Blocks.bytes] at hbytes
  rw [← hbytes] at h ⊢
  generalize hblocks : (format.blocks symbols).buffered = blocks at h ⊢
  -- What goes out early is the beginning of all that goes out.
  have hearly : fs.Fits place ([] ++ blocks.early.flatten) := by
    intro sink hsink
    have hall := h sink hsink
    rw [List.length_append] at hall
    rw [List.nil_append]
    omega
  simp only [Format.writeTo, hblocks, bind, StateT.bind, FileSystem.appendAll_of_fits hearly,
    List.nil_append, FileSystem.appendAll_of_fits h]
  rfl

/-- Where there is not, the file is filled up, and the block that finds no room decides what the
refusal is put down to. -/
theorem writeTo_of_lt {place : Place} {sink : Sink} (hsink : fs.sink place = some sink)
    (h : sink.room < (format.render symbols).length) :
    format.writeTo FileSystem.store place symbols (fs.set place (.file []))
      = (.error ((format.blocks symbols).buffered.cause format.refusal sink),
          fs.set place (.file ((format.render symbols).take sink.room))) := by
  have hbytes := Blocks.bytes_buffered (format.blocks symbols)
  rw [Format.bytes_blocks, Blocks.bytes] at hbytes
  rw [← hbytes] at h ⊢
  generalize hblocks : (format.blocks symbols).buffered = blocks at h ⊢
  by_cases hearly : blocks.early.flatten.length ≤ sink.room
  · -- Everything that goes out early is in the file when the end is refused.
    have hfits : fs.Fits place ([] ++ blocks.early.flatten) := by
      intro other hother
      rw [hsink] at hother
      cases hother
      exact hearly
    simp only [Format.writeTo, hblocks, bind, StateT.bind, FileSystem.appendAll_of_fits hfits,
      List.nil_append, FileSystem.appendAll_of_lt hsink hearly h]
    rw [Blocks.cause, if_pos hearly]
    rfl
  · -- The refusal comes early, so nothing is flushed.
    have hlt := Nat.lt_of_not_le hearly
    have hcut := @FileSystem.appendAll_of_lt fs place [] _ sink hsink (Nat.zero_le _) hlt
    simp only [Format.writeTo, hblocks, bind, StateT.bind, hcut]
    rw [Blocks.cause, if_neg hearly, List.nil_append,
      List.take_append_of_le_length (Nat.le_of_lt hlt)]
    rfl

theorem save_of_createAt_error {fault : Fault} (h : fs.createAt path = .error fault) :
    format.save FileSystem.store path symbols fs
      = (.error (.unwritable format path (.io fault)), fs) := by
  simp only [Format.save, FileSystem.store, FileSystem.create, bind, StateT.bind, h]
  rfl

/-- Once the file is created, the output fails if and only if the writing does, and names the
format and the path. -/
theorem save_of_createAt {place : Place} (h : fs.createAt path = .ok place)
    {result : Except Failure Unit} {after : FileSystem}
    (hwrite : format.writeTo FileSystem.store place symbols (fs.set place (.file []))
      = (result, after)) :
    format.save FileSystem.store path symbols fs
      = (result.mapError (.unwritable format path), after) := by
  have hcreate : FileSystem.store.create path fs = (.ok place, fs.set place (.file [])) := by
    simp only [FileSystem.store, FileSystem.create, h]
  simp only [Format.save, bind, StateT.bind, hcreate, hwrite]
  cases result with
  | error cause => rfl
  | ok done => rfl

/-- An output comes out in one of the three ways. -/
theorem saves_save (fs : FileSystem) (format : Format) (path : String) (symbols : List Symbol) :
    Saves fs format path symbols (format.save FileSystem.store path symbols fs).1
      (format.save FileSystem.store path symbols fs).2 := by
  cases hcreate : fs.createAt path with
  | error fault =>
    rw [save_of_createAt_error hcreate]
    exact .refused hcreate
  | ok place =>
    obtain hfits | ⟨sink, hsink, hlt⟩ := fs.fits_or_exists_sink place (format.render symbols)
    · rw [save_of_createAt hcreate (writeTo_of_fits hfits)]
      exact .whole hcreate hfits
    · rw [save_of_createAt hcreate (writeTo_of_lt hsink hlt)]
      exact .cut hcreate hsink hlt (format.mayFail_cause symbols sink)

namespace Saves

/-- An output that is whole has been written. -/
theorem save_of_ok {after : FileSystem} (h : Saves fs format path symbols (.ok ()) after) :
    format.save FileSystem.store path symbols fs = (.ok (), after) := by
  cases h with
  | whole hcreate hroom => exact save_of_createAt hcreate (writeTo_of_fits hroom)

/-- An output that is not whole has failed, and leaves the same file whatever the failure is put
down to. -/
theorem save_of_error {failure : Failure} {after : FileSystem}
    (h : Saves fs format path symbols (.error failure) after) :
    ∃ cause cause', failure = .unwritable format path cause ∧
      format.save FileSystem.store path symbols fs
        = (.error (.unwritable format path cause'), after) := by
  cases h with
  | refused hcreate => exact ⟨_, _, rfl, save_of_createAt_error hcreate⟩
  | cut hcreate hsink hroom _ =>
    exact ⟨_, _, rfl, save_of_createAt hcreate (writeTo_of_lt hsink hroom)⟩

/-- However an output comes out, it changes files at most. -/
theorem sameButFiles {result : Except Failure Unit} {after : FileSystem}
    (h : Saves fs format path symbols result after) : FileSystem.SameButFiles fs after := by
  cases h with
  | refused _ => exact .refl fs
  | cut hcreate _ _ _ =>
    exact FileSystem.sameButFiles_set (FileSystem.node_ne_directory_of_createAt hcreate)
  | whole hcreate _ =>
    exact FileSystem.sameButFiles_set (FileSystem.node_ne_directory_of_createAt hcreate)

end Saves

end

end SymbolLog
