/-
A run that is repeated changes nothing.

The second run starts from what the first one left, and the first one may have stopped half
way. What it left differs from what it found only in files, at places where outputs are
created; the directories are the same, and so is the input unless an output was written over
it. So the second run reads what the first one read and creates what the first one created.

That it also leaves the same files takes an argument of its own, because the outputs may be
one file, and then the first output is written over the second one for a moment. While it
delivers, the second run is somewhere between the two: at every place there is what the first
run had there at that point, or what it had there in the end (`Between`). An output that is
written, be it in part, brings both runs to the same file at one more place (`save_eq`), and when
no output is left, or one is not whole, the first run is at its end and there is nothing to be
between.
-/
import SymbolLog.Proofs.Job.Stages
import Mathlib

set_option autoImplicit false

namespace SymbolLog

open FileSystem (SameButFiles)

/-! ## What a delivery changes -/

section
variable {fs : FileSystem} {symbols : List Symbol} {outputs : List (Format × String)}

/-- Delivering goes on after an output that is whole and ends with one that is not. -/
theorem deliver_cases (format : Format) (path : String) (rest : List (Format × String)) :
    (∃ after, Saves fs format path symbols (.ok ()) after ∧
        (deliver FileSystem.store symbols ((format, path) :: rest) fs).2
          = (deliver FileSystem.store symbols rest after).2) ∨
      ∃ failure after, Saves fs format path symbols (.error failure) after ∧
        (deliver FileSystem.store symbols ((format, path) :: rest) fs).2 = after := by
  have hsaves := saves_save fs format path symbols
  rcases hsave : format.save FileSystem.store path symbols fs with ⟨_ | ⟨⟨⟩⟩, after⟩
  · rw [hsave] at hsaves
    rw [deliver_of_save_error hsave]
    exact .inr ⟨_, _, hsaves, rfl⟩
  · rw [hsave] at hsaves
    rw [deliver_of_save_ok hsave]
    exact .inl ⟨_, hsaves, rfl⟩

theorem sameButFiles_deliver :
    SameButFiles fs (deliver FileSystem.store symbols outputs fs).2 := by
  induction outputs generalizing fs with
  | nil => exact .refl fs
  | cons output rest ih =>
    obtain ⟨format, path⟩ := output
    obtain ⟨after, hsaves, hdeliver⟩ | ⟨failure, after, hsaves, hdeliver⟩ :=
      @deliver_cases fs symbols format path rest
    · rw [hdeliver]
      exact hsaves.sameButFiles.trans ih
    · rw [hdeliver]
      exact hsaves.sameButFiles

/-- An output changes nothing but the place at which it is created. -/
theorem Saves.node_eq {format : Format} {path : String} {result : Except Failure Unit}
    {after : FileSystem} (h : Saves fs format path symbols result after) {place : Place}
    (hplace : fs.createAt path ≠ .ok place) : after.node place = fs.node place := by
  have hother : ∀ created, fs.createAt path = .ok created → place ≠ created := by
    rintro _ hcreate rfl
    exact hplace hcreate
  cases h with
  | refused _ => rfl
  | cut hcreate _ _ _ => exact FileSystem.node_set_other fs _ (hother _ hcreate)
  | whole hcreate _ => exact FileSystem.node_set_other fs _ (hother _ hcreate)

/-- Where no output is created everything stays. -/
theorem node_deliver {place : Place}
    (hplace : ∀ output ∈ outputs, fs.createAt output.2 ≠ .ok place) :
    (deliver FileSystem.store symbols outputs fs).2.node place = fs.node place := by
  induction outputs generalizing fs with
  | nil => rfl
  | cons output rest ih =>
    obtain ⟨format, path⟩ := output
    rw [List.forall_mem_cons] at hplace
    -- An output is written at its place and the others follow, or it fails and nothing follows.
    obtain ⟨after, hsaves, hdeliver⟩ | ⟨failure, after, hsaves, hdeliver⟩ :=
      @deliver_cases fs symbols format path rest
    · have hrest : ∀ output ∈ rest, after.createAt output.2 ≠ .ok place := by
        intro output houtput
        rw [Ne, FileSystem.createAt_congr hsaves.sameButFiles]
        exact hplace.2 output houtput
      rw [hdeliver]
      exact (ih hrest).trans (hsaves.node_eq hplace.1)
    · rw [hdeliver]
      exact hsaves.node_eq hplace.1

end

/-! ## Delivering again -/

/-- A file system on the way from one to another: it differs from the first in files at most, and
what stands at a place is from one of the two. -/
structure Between (fs last mid : FileSystem) : Prop where
  frame : SameButFiles fs mid
  node : ∀ place, mid.node place = fs.node place ∨ mid.node place = last.node place

namespace Between

variable {fs last mid : FileSystem}

theorem eq_of_ended (h : Between fs fs mid) : mid = fs := by
  have hnode : mid.node = fs.node := by
    funext place
    exact (h.node place).elim id id
  obtain ⟨node, working, sink, elapsed⟩ := mid
  obtain ⟨-, hworking, hsink, helapsed⟩ := h.frame
  dsimp only at hnode hworking hsink helapsed
  rw [hnode, hworking, hsink, helapsed]

/-- What is between stays between when one file is put in all three. -/
theorem set (h : Between fs last mid) (place : Place) (contents : Bytes) :
    Between (fs.set place (.file contents)) last (mid.set place (.file contents)) where
  frame := by
    refine ⟨?_, h.frame.working, h.frame.sink, h.frame.elapsed⟩
    intro other
    by_cases hother : other = place
    · rw [hother, FileSystem.node_set_same, FileSystem.node_set_same]
    · rw [FileSystem.node_set_other _ _ hother, FileSystem.node_set_other _ _ hother]
      exact h.frame.directories other
  node := by
    intro other
    by_cases hother : other = place
    · rw [hother, FileSystem.node_set_same, FileSystem.node_set_same]
      exact .inl rfl
    · rw [FileSystem.node_set_other _ _ hother, FileSystem.node_set_other _ _ hother]
      exact h.node other

/-- An output is created at the same place, and finds as much room there. -/
theorem save_eq (h : Between fs last mid) (format : Format) {path : String}
    (symbols : List Symbol) {place : Place} (hcreate : fs.createAt path = .ok place) :
    ∃ result contents,
      format.save FileSystem.store path symbols fs = (result, fs.set place (.file contents)) ∧
      format.save FileSystem.store path symbols mid = (result, mid.set place (.file contents)) := by
  have hcreate' : mid.createAt path = .ok place := (FileSystem.createAt_congr h.frame).2 hcreate
  obtain hfits | ⟨sink, hsink, hlt⟩ := fs.fits_or_exists_sink place (format.render symbols)
  · have hfits' : mid.Fits place (format.render symbols) := by
      intro sink hsink
      rw [h.frame.sink] at hsink
      exact hfits sink hsink
    exact ⟨_, _, save_of_createAt hcreate (writeTo_of_fits hfits),
      save_of_createAt hcreate' (writeTo_of_fits hfits')⟩
  · have hsink' : mid.sink place = some sink := by rw [h.frame.sink, hsink]
    exact ⟨_, _, save_of_createAt hcreate (writeTo_of_lt hsink hlt),
      save_of_createAt hcreate' (writeTo_of_lt hsink' hlt)⟩

end Between

/-- Whoever delivers from somewhere on the way of a delivery delivers the same, and gets to the
same end. -/
theorem deliver_of_between {fs mid : FileSystem} {symbols : List Symbol}
    {outputs : List (Format × String)}
    (h : Between fs (deliver FileSystem.store symbols outputs fs).2 mid) :
    deliver FileSystem.store symbols outputs mid
      = deliver FileSystem.store symbols outputs fs := by
  induction outputs generalizing fs mid with
  | nil => rw [Between.eq_of_ended h]
  | cons output rest ih =>
    obtain ⟨format, path⟩ := output
    cases hcreate : fs.createAt path with
    | error fault =>
      rw [deliver_of_save_error (save_of_createAt_error hcreate)] at h
      rw [Between.eq_of_ended h]
    | ok place =>
      obtain ⟨result, contents, hsave, hsave'⟩ := h.save_eq format symbols hcreate
      cases result with
      | error failure =>
        -- The output is cut off in both, and with it the two are the same.
        rw [deliver_of_save_error hsave] at h
        have hsame := (h.set place contents).eq_of_ended
        rw [deliver_of_save_error hsave, deliver_of_save_error hsave', hsame]
      | ok done =>
        rw [deliver_of_save_ok hsave] at h
        rw [deliver_of_save_ok hsave, deliver_of_save_ok hsave', ih (h.set place contents)]

/-- **Delivering again changes nothing.** What the first delivery leaves is between what it found
and what it leaves, and from anywhere in between a delivery comes to the same. -/
theorem deliver_again (fs : FileSystem) (symbols : List Symbol) (outputs : List (Format × String)) :
    deliver FileSystem.store symbols outputs (deliver FileSystem.store symbols outputs fs).2
      = deliver FileSystem.store symbols outputs fs :=
  deliver_of_between ⟨sameButFiles_deliver, fun _ => .inr rfl⟩

namespace Job

/-! ## Running again -/

/-- What a run reports of an input that it has read to the end, by the delivery that follows. -/
def reportOf (job : Job) (survey : Survey) (delivery : Delivery) : Report :=
  let closing := (Collection.empty.add survey).close
  { result := delivery.failure.elim (.ok closing.tally) .error
    progress := .reading job.input :: .found closing.symbols.length :: delivery.progress
    events := survey.events ++ closing.events ++ delivery.events }

/-- Once the input has been read to its end, the rest of a run is a delivery, of symbols and
with a report that depend on nothing but the input. -/
theorem run_of_source {job : Job} {fs : FileSystem} {source : Source}
    (hopen : fs.openRead job.input = .ok source)
    (hfault : (Survey.ofReader (.ofSource source)).fault = none) :
    let survey := Survey.ofReader (.ofSource source)
    let symbols := (Collection.empty.add survey).close.symbols
    job.run FileSystem.store fs
      = (job.reportOf survey (deliver FileSystem.store symbols job.outputs fs).1,
          (deliver FileSystem.store symbols job.outputs fs).2) := by
  intro survey symbols
  simp only [Job.run, FileSystem.store, bind, StateT.bind, hopen, hfault, survey, symbols]
  generalize deliver (m := StateM FileSystem) _ _ job.outputs fs = delivered
  rcases delivered with ⟨⟨_ | failure, progress, events⟩, after⟩
  · rfl
  · rfl

/-- **A run that is repeated changes nothing.** If no output is written over the input, a second
run in the file system that the first one left reports what the first one reported, whether that
is success or the failure of any stage, and leaves that file system as it is. -/
theorem run_again {job : Job} {fs : FileSystem}
    (hinput : ∀ place, fs.Names job.input place →
      ¬ fs.Names job.jsonOutput place ∧ ¬ fs.Names job.csvOutput place) :
    job.run FileSystem.store (job.run FileSystem.store fs).2 = job.run FileSystem.store fs := by
  cases hopen : fs.openRead job.input with
  | error fault =>
    have hafter := congrArg Prod.snd (run_of_openRead_error hopen)
    rw [hafter]
  | ok source =>
    cases hfault : (Survey.ofReader (.ofSource source)).fault with
    | some fault =>
      have hafter := (run_of_fault hopen hfault).2
      rw [hafter]
    | none =>
      have hsame : SameButFiles fs (job.run FileSystem.store fs).2 := by
        rw [run_of_source hopen hfault]
        exact sameButFiles_deliver
      -- A directory is opened too, but it is not read to its end.
      obtain rfl | ⟨contents, -, -, rfl, -⟩ := FileSystem.openRead_eq_ok hopen
      · rw [Survey.fault_ofDirectory] at hfault
        cases hfault
      have hopen' : (job.run FileSystem.store fs).2.openRead job.input
          = .ok (.ofBytes contents) := by
        apply FileSystem.openRead_congr hsame hopen
        intro place hnames
        obtain ⟨hjson, hcsv⟩ := hinput place hnames
        obtain ⟨-, -, other, -, -, hnode⟩ := hnames
        rw [run_of_source hopen hfault]
        apply node_deliver
        intro output houtput hcreate
        have hnamed := FileSystem.names_of_createAt hcreate hnode
        rw [outputs, List.mem_cons, List.mem_singleton] at houtput
        rcases houtput with rfl | rfl
        · exact hjson hnamed
        · exact hcsv hnamed
      rw [run_of_source hopen' hfault, run_of_source hopen hfault, deliver_again]

/-- The listing goes to a file that the path of the table leads through. -/
def nestedJob : Job := ⟨"log", "a", "a/b"⟩

/-- A log with one symbol, and an older listing that is longer than the new one. -/
def nestedDisk : FileSystem :=
  (FileSystem.empty.addFile (FileSystem.placeOf "log")
    (Utf8.encode "Symbol ID: 7 Name: a Desc: b\n".toList)).addFile (FileSystem.placeOf "a")
    (List.replicate 200 0x20)

/-- A job whose table fails because of its listing fails in the same way again, when the listing
is there from the start. -/
theorem run_again_nestedJob :
    (nestedJob.run FileSystem.store nestedDisk).1.result
        = .error (.unwritable .csv "a/b" (.io .notDirectory)) ∧
      nestedJob.run FileSystem.store (nestedJob.run FileSystem.store nestedDisk).2
        = nestedJob.run FileSystem.store nestedDisk := by
  have hlog : nestedDisk.locate "log".toList = .ok (.entry FileSystem.home "log".toList false) :=
    rfl
  have hjson : nestedDisk.locate "a".toList = .ok (.entry FileSystem.home "a".toList false) := rfl
  have hcsv : nestedDisk.locate "a/b".toList = .error .notDirectory := rfl
  refine ⟨by cbv, run_again ?_⟩
  -- The only file at the end of the path of the input is none that an output would replace.
  rintro place ⟨parent, name, contents, hlocate, rfl, -⟩
  rw [nestedJob, hlog] at hlocate
  cases hlocate
  constructor
  · rintro ⟨parent, name, contents, hlocate, hplace, -⟩
    rw [nestedJob, hjson] at hlocate
    cases hlocate
    exact absurd hplace (by decide)
  · rintro ⟨parent, name, contents, hlocate, -, -⟩
    rw [nestedJob, hcsv] at hlocate
    cases hlocate

end Job

end SymbolLog
