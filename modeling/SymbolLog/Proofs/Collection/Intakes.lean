/-
What a collection holds after any number of intakes.

A collection takes in streams, readers that are somewhere in their logs, and files, one
after the other, and each of these may break off. The model surveys a log first and adds
the survey afterwards; here both are one pass. What an intake comes to is a list of
readings, the lines before the first fault are handled and nothing else is, and the
collection is the fold over those lines (`absorb_eq`).

Everything about sequences follows from folds over appended lists. An intake has no
influence on the next one but through the lines that it handled, so one that failed counts
as a reader that held just these.
-/
import SymbolLog.FileSystem
import SymbolLog.Proofs.Finding
import SymbolLog.Proofs.Log.Survey

set_option autoImplicit false

namespace SymbolLog

/-! ## Folding lines into a collection -/

namespace Collection

def addFinding (c : Collection) (finding : Finding) : Collection where
  symbols := c.symbols ++ finding.symbol?.toList
  tally := c.tally.record finding

/-- Takes lines in, one after the other. -/
def addLines (c : Collection) (lines : List Text) : Collection :=
  lines.foldl (fun c line => c.addFinding (Finding.ofLine line)) c

theorem addLines_cons (c : Collection) (line : Text) (lines : List Text) :
    c.addLines (line :: lines) = (c.addFinding (Finding.ofLine line)).addLines lines := rfl

/-- Lines may be taken in together or in two parts. -/
theorem addLines_append (c : Collection) (first second : List Text) :
    c.addLines (first ++ second) = (c.addLines first).addLines second := by
  simp only [addLines, List.foldl_append]

/-- The symbols of the lines stand behind those that were there, in the order of the lines. -/
theorem symbols_addLines (c : Collection) (lines : List Text) :
    (c.addLines lines).symbols
      = c.symbols ++ lines.filterMap fun line => (Finding.ofLine line).symbol? := by
  induction lines generalizing c with
  | nil => simp [addLines]
  | cons line lines ih =>
    rw [addLines_cons, ih, addFinding, List.append_assoc, List.filterMap_cons]
    cases (Finding.ofLine line).symbol? with
    | none => simp
    | some s => simp

/-- Only canonical symbols are ever added. -/
theorem isCanonical_of_mem_addLines {c : Collection} (hc : ∀ s ∈ c.symbols, s.IsCanonical)
    (lines : List Text) : ∀ s ∈ (c.addLines lines).symbols, s.IsCanonical := by
  rw [symbols_addLines]
  refine List.forall_mem_append.2 ⟨hc, ?_⟩
  intro s hs
  obtain ⟨line, -, hline⟩ := List.mem_filterMap.1 hs
  exact Finding.isCanonical_of_ofLine hline

/-- The counters do not depend on the symbols. -/
theorem tally_addLines (c : Collection) (lines : List Text) :
    (c.addLines lines).tally
      = lines.foldl (fun tally line => tally.record (Finding.ofLine line)) c.tally := by
  induction lines generalizing c with
  | nil => rfl
  | cons line lines ih => rw [addLines_cons, ih, List.foldl_cons, addFinding]

theorem add_nil (c : Collection) (fault : Option Fault) : c.add ⟨[], fault⟩ = c := by
  simp [add, Survey.symbols]

theorem add_cons (c : Collection) (number : Nat) (finding : Finding)
    (findings : List (Nat × Finding)) (fault : Option Fault) :
    c.add ⟨(number, finding) :: findings, fault⟩
      = (c.addFinding finding).add ⟨findings, fault⟩ := by
  cases hsymbol : finding.symbol? with
  | none => simp [add, addFinding, Survey.symbols, hsymbol]
  | some s => simp [add, addFinding, Survey.symbols, hsymbol]

/-- Surveying first and adding then is taking in the lines that are handled. -/
theorem add_ofReadings (c : Collection) (readings : List Reading) :
    c.add (Survey.ofReadings readings) = c.addLines (Reading.handled readings) := by
  -- Both sides follow the readings up to the first fault.
  induction readings generalizing c with
  | nil => exact add_nil c none
  | cons reading rest ih =>
    cases reading with
    | fault f =>
      rw [Reading.handled_fault]
      exact add_nil c (some f)
    | line number t =>
      rw [Reading.handled_line, addLines_cons, ← ih]
      exact add_cons c number (Finding.ofLine t) _ _

/-- **What a reader comes to**: the lines before the first fault, and that fault as the failure.
-/
theorem absorb_eq (c : Collection) (r : Reader) :
    c.absorb r
      = (c.addLines (Reading.handled r.readings), (Reading.firstFault? r.readings).map .io) := by
  rw [absorb, Survey.ofReader, add_ofReadings, Survey.fault_ofReadings]

/-- A log that spells a text is taken in line by line, and does not fail. -/
theorem absorb_encode (c : Collection) (t : Text) :
    c.absorb (.ofSource (.ofBytes (Utf8.encode t))) = (c.addLines t.lines, none) := by
  rw [absorb_eq, readings_encode, Reading.handled_ofLines, Reading.firstFault?_ofLines]
  rfl

/-! ## Files -/

section
variable {fs : FileSystem} {path : String}

/-- A file that can be opened is absorbed as its source, and no file changes. -/
theorem absorbFile_of_openRead (c : Collection) {source : Source}
    (h : fs.openRead path = .ok source) :
    c.absorbFile FileSystem.store path fs = (c.absorb (.ofSource source), fs) := by
  simp only [absorbFile, FileSystem.store, bind, StateT.bind, h]
  rfl

theorem absorbFile_of_openRead_error (c : Collection) {fault : Fault}
    (h : fs.openRead path = .error fault) :
    c.absorbFile FileSystem.store path fs = ((c, some (.ofOpening path fault)), fs) := by
  simp only [absorbFile, FileSystem.store, bind, StateT.bind, h]
  rfl

end

end Collection

/-! ## Intakes -/

/-- Something that a collection takes in. -/
inductive Intake where
  | stream (source : Source)
  /-- A reader, wherever it is in its log. -/
  | reader (r : Reader)
  /-- The file at a path, in the file system as it is by then. -/
  | file (fs : FileSystem) (path : String)

namespace Intake

/-- The reader of an intake, unless there is nothing to read from. -/
def opened : Intake → Except Failure Reader
  | .stream source => .ok (.ofSource source)
  | .reader r => .ok r
  | .file fs path =>
    match fs.openRead path with
    | .ok source => .ok (.ofSource source)
    | .error fault => .error (.ofOpening path fault)

/-- The lines that an intake handles: those before the first fault. -/
def lines (intake : Intake) : List Text :=
  match intake.opened with
  | .ok r => Reading.handled r.readings
  | .error _ => []

/-- Why an intake fails, if it does. -/
def failure? (intake : Intake) : Option Failure :=
  match intake.opened with
  | .ok r => (Reading.firstFault? r.readings).map .io
  | .error failure => some failure

theorem lines_ofLines (lines : List Text) : (Intake.reader (.ofLines lines)).lines = lines := by
  simp only [Intake.lines, opened, Reader.readings_ofLines, Reading.handled_ofLines]

theorem failure?_ofLines (lines : List Text) :
    (Intake.reader (.ofLines lines)).failure? = none := by
  simp only [failure?, opened, Reader.readings_ofLines, Reading.firstFault?_ofLines,
    Option.map_none]

end Intake

namespace Collection

/-- Takes one thing in, and says why it broke off if it did. -/
def takeIn (c : Collection) : Intake → Collection × Option Failure
  | .stream source => c.absorb (.ofSource source)
  | .reader r => c.absorb r
  | .file fs path => (c.absorbFile FileSystem.store path fs).1

/-- Takes one thing in after the other, whether or not some of them break off. -/
def takeAll (c : Collection) : List Intake → Collection × List (Option Failure)
  | [] => (c, [])
  | intake :: rest =>
    let (next, failure) := c.takeIn intake
    let (last, failures) := next.takeAll rest
    (last, failure :: failures)

/-- Taking something in is handling its lines and reporting its failure. Nothing else of the
collection matters to either. -/
theorem takeIn_eq (c : Collection) (intake : Intake) :
    c.takeIn intake = (c.addLines intake.lines, intake.failure?) := by
  cases intake with
  | stream source => exact absorb_eq c _
  | reader r => exact absorb_eq c r
  | file fs path =>
    -- A file is opened first; if that fails there is nothing to read.
    cases hopen : fs.openRead path with
    | ok source =>
      have hfile := absorbFile_of_openRead c hopen
      simp only [takeIn, hfile, Intake.lines, Intake.failure?, Intake.opened, hopen]
      exact absorb_eq c _
    | error fault =>
      have hfile := absorbFile_of_openRead_error c hopen
      simp only [takeIn, hfile, Intake.lines, Intake.failure?, Intake.opened, hopen]
      rfl

/-- Any number of intakes are their lines, one behind the other, and their failures. -/
theorem takeAll_eq (c : Collection) (intakes : List Intake) :
    c.takeAll intakes
      = (c.addLines (intakes.flatMap Intake.lines), intakes.map Intake.failure?) := by
  induction intakes generalizing c with
  | nil => rfl
  | cons intake rest ih =>
    simp only [takeAll, takeIn_eq, ih, List.flatMap_cons, List.map_cons, addLines_append]

/-- **A collection holds what the handled lines yield, and nothing else.** A reader adds,
after any number of readings were taken from it, the symbols and the counts of the lines
that are left before the next fault, and reports that fault; a file that cannot be opened
adds nothing. A sequence of intakes is the fold over the lines that they handle, each
failing as it would alone. So an intake that fails makes no difference to the others: they
go on as after a reader that held just the lines that it handled. -/
theorem takeAll_handled (c : Collection) :
    (∀ (r : Reader) (n : Nat),
      let rest := r.readings.drop n
      (c.absorb (r.skip n)).1.symbols
          = c.symbols
            ++ (Reading.handled rest).filterMap (fun line => (Finding.ofLine line).symbol?) ∧
        (c.absorb (r.skip n)).1.tally
          = (Reading.handled rest).foldl (fun tally line => tally.record (Finding.ofLine line))
              c.tally ∧
        (c.absorb (r.skip n)).2 = (Reading.firstFault? rest).map .io) ∧
      (∀ (fs : FileSystem) (path : String) (fault : Fault), fs.openRead path = .error fault →
        c.absorbFile FileSystem.store path fs = ((c, some (.ofOpening path fault)), fs)) ∧
      (∀ intakes : List Intake,
        c.takeAll intakes
          = ((intakes.flatMap Intake.lines).foldl
                (fun c line => c.addFinding (Finding.ofLine line)) c,
              intakes.map Intake.failure?)) ∧
      ∀ (before : List Intake) (failed : Intake) (after : List Intake),
        let resumed := c.takeAll (before ++ .reader (.ofLines failed.lines) :: after)
        (c.takeAll (before ++ failed :: after)).1 = resumed.1 ∧
          resumed.2 = before.map Intake.failure? ++ none :: after.map Intake.failure? := by
  refine ⟨?_, ?_, fun intakes => takeAll_eq c intakes, ?_⟩
  · intro r n rest
    have habsorb := absorb_eq c (r.skip n)
    rw [Reader.readings_skip] at habsorb
    rw [habsorb]
    exact ⟨symbols_addLines c _, tally_addLines c _, rfl⟩
  · intro fs path fault hopen
    exact absorbFile_of_openRead_error c hopen
  · intro before failed after resumed
    -- The failed intake is replaced by one that has the lines it handled and no failure.
    have hresumed : resumed = (c.addLines ((before ++ failed :: after).flatMap Intake.lines),
        before.map Intake.failure? ++ none :: after.map Intake.failure?) := by
      show c.takeAll _ = _
      rw [takeAll_eq]
      simp [Intake.lines_ofLines, Intake.failure?_ofLines]
    rw [hresumed, takeAll_eq]
    exact ⟨rfl, rfl⟩

/-- A file that is missing is no part of what is taken in. -/
theorem takeAll_handled_missingFile :
    FileSystem.empty.openRead "log.txt" = .error .notFound ∧
      empty.absorbFile FileSystem.store "log.txt" FileSystem.empty
        = ((empty, some (.ofOpening "log.txt" .notFound)), FileSystem.empty) := by
  have hopen : FileSystem.empty.openRead "log.txt" = .error .notFound := rfl
  exact ⟨hopen, (takeAll_handled empty).2.1 _ _ _ hopen⟩

end Collection

end SymbolLog
