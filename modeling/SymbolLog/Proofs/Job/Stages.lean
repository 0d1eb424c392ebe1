/-
How an extraction ends.

An extraction goes through stages: the input is opened, it is read to its end, the
listing is written, the table is written. Each stage can fail, and the first that
does decides both the result and the file system: before the listing nothing has
been written, and whatever becomes of the table, the listing stays as it is. An
output may be refused before it is begun or in the middle, and then a part of it
stays (`Saves`). `EndsAt` says this stage by stage, in terms of the input, the paths
and the file system only.

Which stage it is depends on nothing else (`stage_unique`), although there is more
to it than a look at the constructors: the table is refused in the file system that
holds the listing already, and a log may be a text or malformed, but not both. Nor
does the file system that is left, though a failure in the middle of an output may
be put down to one thing or another.
-/
import SymbolLog.Proofs.Job.Saving
import SymbolLog.Proofs.Log.Survey
import Mathlib

set_option autoImplicit false

namespace SymbolLog

/-! ## Stages -/

namespace Job

/-- The stages at which an extraction may end. -/
inductive Stage where
  | opening
  | reading
  | listing
  | table
  | done
  deriving DecidableEq

/-- An extraction ends at a stage with a result, and leaves a file system. -/
inductive EndsAt (job : Job) (fs : FileSystem) :
    Stage → Except Failure Tally → FileSystem → Prop where
  /-- The input cannot be opened. -/
  | opening {fault : Fault} (hopen : fs.openRead job.input = .error fault) :
    EndsAt job fs .opening
      (.error (if fault = .notFound then .missingInput job.input else .io fault)) fs
  /-- The input is a directory. -/
  | directory (hopen : fs.openRead job.input = .ok .ofDirectory) :
    EndsAt job fs .reading (.error (.io .isDirectory)) fs
  /-- The input is malformed at some line. -/
  | malformed {bytes chunk : Bytes} {cause : Utf8.Malformed}
    (hopen : fs.openRead job.input = .ok (.ofBytes bytes))
    (hchunk : MalformedAt bytes chunk cause) :
    EndsAt job fs .reading (.error (.io (.malformedText cause))) fs
  /-- The listing cannot be created, or not all of it be written. -/
  | listing {t : Text} {failure : Failure} {after : FileSystem}
    (hopen : fs.openRead job.input = .ok (.ofBytes (Utf8.encode t)))
    (hjson : Saves fs .json job.jsonOutput (catalogue t.symbols) (.error failure) after) :
    EndsAt job fs .listing (.error failure) after
  /-- The table cannot be created, or not all of it be written, once the listing is whole. -/
  | table {t : Text} {failure : Failure} {mid after : FileSystem}
    (hopen : fs.openRead job.input = .ok (.ofBytes (Utf8.encode t)))
    (hjson : Saves fs .json job.jsonOutput (catalogue t.symbols) (.ok ()) mid)
    (hcsv : Saves mid .csv job.csvOutput (catalogue t.symbols) (.error failure) after) :
    EndsAt job fs .table (.error failure) after
  /-- Both are whole. -/
  | done {t : Text} {mid after : FileSystem}
    (hopen : fs.openRead job.input = .ok (.ofBytes (Utf8.encode t)))
    (hjson : Saves fs .json job.jsonOutput (catalogue t.symbols) (.ok ()) mid)
    (hcsv : Saves mid .csv job.csvOutput (catalogue t.symbols) (.ok ()) after) :
    EndsAt job fs .done
      (.ok (Collection.empty.add ⟨Survey.findingsFrom 0 t.lines, none⟩).close.tally) after

/-- Two extractions come to the same, but for what a failure to write is put down to. -/
inductive SameResult : Except Failure Tally → Except Failure Tally → Prop where
  | same (result : Except Failure Tally) : SameResult result result
  | unwritable (format : Format) (path : String) (cause cause' : Failure) :
    SameResult (.error (.unwritable format path cause)) (.error (.unwritable format path cause'))

end Job

/-! ## Delivery

The outputs are written one after the other, up to the first that is not whole. -/

section
variable {fs after : FileSystem} {format : Format} {path : String} {symbols : List Symbol}
  {rest : List (Format × String)}

theorem deliver_of_save_error {failure : Failure}
    (h : format.save FileSystem.store path symbols fs = (.error failure, after)) :
    deliver FileSystem.store symbols ((format, path) :: rest) fs
      = (⟨some failure, [], []⟩, after) := by
  simp only [deliver, bind, StateT.bind, h]
  rfl

/-- An output that is written is announced, and the others follow in the file system that holds
it. -/
theorem deliver_of_save_ok
    (h : format.save FileSystem.store path symbols fs = (.ok (), after)) :
    deliver FileSystem.store symbols ((format, path) :: rest) fs
      = ({ failure := (deliver FileSystem.store symbols rest after).1.failure
           progress := .wrote format path :: (deliver FileSystem.store symbols rest after).1.progress
           events := .written path format symbols.length ::
             (deliver FileSystem.store symbols rest after).1.events },
         (deliver FileSystem.store symbols rest after).2) := by
  simp only [deliver, bind, StateT.bind, h]
  rfl

end

namespace Job

/-! ## Runs -/

section
variable {job : Job} {fs : FileSystem}

theorem run_of_openRead_error {fault : Fault} (h : fs.openRead job.input = .error fault) :
    job.run FileSystem.store fs = (⟨.error (.ofOpening job.input fault), [], []⟩, fs) := by
  simp only [Job.run, FileSystem.store, bind, StateT.bind, h]
  rfl

/-- Nothing is written of a log that cannot be read to its end. -/
theorem run_of_fault {source : Source} {fault : Fault} (h : fs.openRead job.input = .ok source)
    (hfault : (Survey.ofReader (.ofSource source)).fault = some fault) :
    (job.run FileSystem.store fs).1.result = .error (.io fault) ∧
      (job.run FileSystem.store fs).2 = fs := by
  simp only [Job.run, FileSystem.store, bind, StateT.bind, h, hfault]
  exact ⟨rfl, rfl⟩

theorem symbols_close_add (t : Text) :
    (Collection.empty.add ⟨Survey.findingsFrom 0 t.lines, none⟩).close.symbols
      = catalogue t.symbols := by
  show catalogue (Collection.add .empty _).symbols = _
  rw [collected_of_text]

/-- After a log that spells a text only the delivery can fail. -/
theorem run_of_text {t : Text} (h : fs.openRead job.input = .ok (.ofBytes (Utf8.encode t))) :
    (job.run FileSystem.store fs).1.result
        = (match (deliver FileSystem.store (catalogue t.symbols) job.outputs fs).1.failure with
          | some failure => .error failure
          | none =>
            .ok (Collection.empty.add ⟨Survey.findingsFrom 0 t.lines, none⟩).close.tally) ∧
      (job.run FileSystem.store fs).2
        = (deliver FileSystem.store (catalogue t.symbols) job.outputs fs).2 := by
  have hsymbols := symbols_close_add t
  simp only [Job.run, FileSystem.store, bind, StateT.bind, h, Survey.ofReader_encode, hsymbols]
  exact ⟨rfl, rfl⟩

/-- An extraction that ends in some way leaves that file system, with a result that comes to the
same. -/
theorem run_of_endsAt {stage : Stage} {result : Except Failure Tally} {after : FileSystem}
    (h : job.EndsAt fs stage result after) :
    SameResult (job.run FileSystem.store fs).1.result result ∧
      (job.run FileSystem.store fs).2 = after := by
  -- Each stage says enough to follow the run to its end.
  cases h with
  | opening hopen =>
    rw [run_of_openRead_error hopen]
    exact ⟨.same _, rfl⟩
  | directory hopen =>
    obtain ⟨hresult, hafter⟩ := run_of_fault hopen Survey.fault_ofDirectory
    exact ⟨hresult ▸ .same _, hafter⟩
  | malformed hopen hchunk =>
    obtain ⟨hresult, hafter⟩ := run_of_fault hopen (Survey.fault_of_malformedAt hchunk)
    exact ⟨hresult ▸ .same _, hafter⟩
  | listing hopen hjson =>
    obtain ⟨hresult, hafter⟩ := run_of_text hopen
    obtain ⟨cause, cause', rfl, hsave⟩ := hjson.save_of_error
    rw [hresult, hafter, outputs, deliver_of_save_error hsave]
    exact ⟨.unwritable _ _ _ _, rfl⟩
  | table hopen hjson hcsv =>
    obtain ⟨hresult, hafter⟩ := run_of_text hopen
    obtain ⟨cause, cause', rfl, hsave⟩ := hcsv.save_of_error
    rw [hresult, hafter, outputs, deliver_of_save_ok hjson.save_of_ok, deliver_of_save_error hsave]
    exact ⟨.unwritable _ _ _ _, rfl⟩
  | done hopen hjson hcsv =>
    obtain ⟨hresult, hafter⟩ := run_of_text hopen
    rw [hresult, hafter, outputs, deliver_of_save_ok hjson.save_of_ok,
      deliver_of_save_ok hcsv.save_of_ok]
    exact ⟨.same _, rfl⟩

/-- An extraction ends at some stage, with the result that it reports. -/
theorem endsAt_run (job : Job) (fs : FileSystem) :
    ∃ stage, job.EndsAt fs stage (job.run FileSystem.store fs).1.result
      (job.run FileSystem.store fs).2 := by
  cases hopen : fs.openRead job.input with
  | error fault =>
    rw [run_of_openRead_error hopen]
    exact ⟨_, .opening hopen⟩
  | ok source =>
    obtain rfl | ⟨bytes, -, -, rfl, -⟩ := FileSystem.openRead_eq_ok hopen
    · obtain ⟨hresult, hafter⟩ := run_of_fault hopen Survey.fault_ofDirectory
      rw [hresult, hafter]
      exact ⟨_, .directory hopen⟩
    -- The bytes of a file spell a text, or there is a first chunk that does not.
    obtain ⟨t, rfl⟩ | ⟨chunk, cause, hchunk⟩ := encode_or_malformed bytes
    · obtain ⟨hresult, hafter⟩ := run_of_text hopen
      have hjson := saves_save fs .json job.jsonOutput (catalogue t.symbols)
      rcases hsaved : Format.json.save FileSystem.store job.jsonOutput (catalogue t.symbols) fs
        with ⟨_ | ⟨⟨⟩⟩, mid⟩
      · rw [hresult, hafter, outputs, deliver_of_save_error hsaved]
        rw [hsaved] at hjson
        exact ⟨_, .listing hopen hjson⟩
      · -- The table is written where the listing stands already.
        rw [hsaved] at hjson
        have hcsv := saves_save mid .csv job.csvOutput (catalogue t.symbols)
        rcases hsaved' : Format.csv.save FileSystem.store job.csvOutput (catalogue t.symbols) mid
          with ⟨_ | ⟨⟨⟩⟩, after⟩
        · rw [hresult, hafter, outputs, deliver_of_save_ok hsaved, deliver_of_save_error hsaved']
          rw [hsaved'] at hcsv
          exact ⟨_, .table hopen hjson hcsv⟩
        · rw [hresult, hafter, outputs, deliver_of_save_ok hsaved, deliver_of_save_ok hsaved']
          rw [hsaved'] at hcsv
          exact ⟨_, .done hopen hjson hcsv⟩
    · obtain ⟨hresult, hafter⟩ := run_of_fault hopen (Survey.fault_of_malformedAt hchunk)
      rw [hresult, hafter]
      exact ⟨_, .malformed hopen hchunk⟩

/-! ## Telling the stages apart

A result names its stage, except that an input that cannot be opened and one that
cannot be read may fail alike. Whether it can be opened settles that. -/

/-- The stage that a result names, given whether the input could be opened. -/
def Stage.ofResult (opened : Bool) : Except Failure Tally → Stage
  | .error (.unwritable .json _ _) => .listing
  | .error (.unwritable .csv _ _) => .table
  | .error _ => if opened then .reading else .opening
  | .ok _ => .done

/-- A result names the stage at which the extraction has ended. -/
theorem stage_eq_ofResult {stage : Stage} {result : Except Failure Tally} {after : FileSystem}
    (h : job.EndsAt fs stage result after) :
    stage = Stage.ofResult (fs.openRead job.input).isOk result := by
  cases h with
  | opening hopen =>
    rw [hopen]
    split
    · rfl
    · rfl
  | directory hopen => rw [hopen]; rfl
  | malformed hopen _ => rw [hopen]; rfl
  | listing _ hjson =>
    obtain ⟨_, _, rfl, _⟩ := hjson.save_of_error
    rfl
  | table _ _ hcsv =>
    obtain ⟨_, _, rfl, _⟩ := hcsv.save_of_error
    rfl
  | done _ _ _ => rfl

/-- Results that come to the same name the same stage. -/
theorem SameResult.ofResult_eq {result other : Except Failure Tally} (h : SameResult result other)
    (opened : Bool) : Stage.ofResult opened result = Stage.ofResult opened other := by
  cases h with
  | same _ => rfl
  | unwritable format _ _ _ =>
    cases format with
    | json => rfl
    | csv => rfl

/-- No other stage ends the same extraction, and none ends it otherwise. -/
theorem stage_unique {stage other : Stage} {result result' : Except Failure Tally}
    {after after' : FileSystem} (h : job.EndsAt fs stage result after)
    (hother : job.EndsAt fs other result' after') : other = stage ∧ after' = after := by
  obtain ⟨hresult, hafter⟩ := run_of_endsAt h
  obtain ⟨hresult', hafter'⟩ := run_of_endsAt hother
  refine ⟨?_, hafter'.symm.trans hafter⟩
  rw [stage_eq_ofResult h, stage_eq_ofResult hother, ← hresult.ofResult_eq, ← hresult'.ofResult_eq]

/-- Only an input that is not there is reported as missing: no later failure is, and no other
failure to open it. -/
theorem missingInput_iff {stage : Stage} {result : Except Failure Tally} {after : FileSystem}
    (h : job.EndsAt fs stage result after) :
    (∃ failure, result = .error failure ∧ failure.isMissingInput = true)
      ↔ fs.openRead job.input = .error .notFound := by
  cases h with
  | @opening fault hopen =>
    rw [hopen]
    constructor
    · rintro ⟨failure, hfailure, hmissing⟩
      -- Of the failures to open only one is reported as missing.
      by_cases hfault : fault = .notFound
      · rw [hfault]
      · rw [if_neg hfault] at hfailure
        cases hfailure
        cases hmissing
    · intro hfault
      cases hfault
      exact ⟨_, rfl, rfl⟩
  | directory hopen => rw [hopen]; exact ⟨by rintro ⟨_, ⟨⟩, ⟨⟩⟩, nofun⟩
  | malformed hopen _ => rw [hopen]; exact ⟨by rintro ⟨_, ⟨⟩, ⟨⟩⟩, nofun⟩
  | listing hopen hjson =>
    obtain ⟨_, _, rfl, _⟩ := hjson.save_of_error
    rw [hopen]
    exact ⟨by rintro ⟨_, ⟨⟩, ⟨⟩⟩, nofun⟩
  | table hopen _ hcsv =>
    obtain ⟨_, _, rfl, _⟩ := hcsv.save_of_error
    rw [hopen]
    exact ⟨by rintro ⟨_, ⟨⟩, ⟨⟩⟩, nofun⟩
  | done hopen _ _ => rw [hopen]; exact ⟨by rintro ⟨_, ⟨⟩, _⟩, nofun⟩

/-! ## What is written -/

/-- A file holds one of the outputs: all of it, or the part that had room before the failure with
which the extraction ended. -/
def Delivered (job : Job) (fs after : FileSystem) (result : Except Failure Tally) (place : Place) :
    Prop :=
  ∃ t format path contents, fs.openRead job.input = .ok (.ofBytes (Utf8.encode t)) ∧
    (format, path) ∈ job.outputs ∧ fs.createAt path = .ok place ∧
    after.node place = some (.file contents) ∧
    (contents = format.render (catalogue t.symbols) ∨
      ∃ cause sink, result = .error (.unwritable format path cause) ∧
        fs.sink place = some sink ∧ sink.room < (format.render (catalogue t.symbols)).length ∧
        contents = (format.render (catalogue t.symbols)).take sink.room)

/-- Where a listing is whole it changes one place, which it has for itself unless the table has
it too. -/
theorem unchanged_or_delivered_of_listing {t : Text} {mid after : FileSystem}
    {result : Except Failure Tally}
    (hopen : fs.openRead job.input = .ok (.ofBytes (Utf8.encode t)))
    (hjson : Saves fs .json job.jsonOutput (catalogue t.symbols) (.ok ()) mid) {place : Place}
    (hafter : after.node place = mid.node place) :
    after.node place = fs.node place ∨ job.Delivered fs after result place := by
  rw [Delivered, hafter]
  cases hjson with
  | @whole jsonPlace hcreate _ =>
    by_cases hplace : place = jsonPlace
    · subst hplace
      exact .inr ⟨t, .json, _, _, hopen, .head _, hcreate, FileSystem.node_set_same _ _ _, .inl rfl⟩
    · exact .inl (FileSystem.node_set_other _ _ hplace)

/-- Stage by stage: what does not stand at the place of an output stays, and what does is all of
the output or the part before its failure. -/
theorem unchanged_or_delivered {stage : Stage} {result : Except Failure Tally}
    {after : FileSystem} (h : job.EndsAt fs stage result after) (place : Place) :
    after.node place = fs.node place ∨ job.Delivered fs after result place := by
  cases h with
  | opening _ => exact .inl rfl
  | directory _ => exact .inl rfl
  | malformed _ _ => exact .inl rfl
  | @listing t _ _ hopen hjson =>
    cases hjson with
    | refused _ => exact .inl rfl
    | @cut jsonPlace sink cause hcreate hsink hroom _ =>
      by_cases hplace : place = jsonPlace
      · subst hplace
        exact .inr ⟨t, .json, _, _, hopen, .head _, hcreate, FileSystem.node_set_same _ _ _,
          .inr ⟨cause, sink, rfl, hsink, hroom, rfl⟩⟩
      · exact .inl (FileSystem.node_set_other _ _ hplace)
  | @table t _ mid _ hopen hjson hcsv =>
    have hmid := hjson.sameButFiles
    cases hcsv with
    | refused _ => exact unchanged_or_delivered_of_listing hopen hjson rfl
    | @cut csvPlace sink cause hcreate hsink hroom _ =>
      by_cases hplace : place = csvPlace
      · subst hplace
        rw [hmid.sink] at hsink
        exact .inr ⟨t, .csv, _, _, hopen, .tail _ (.head _),
          (FileSystem.createAt_congr hmid).1 hcreate, FileSystem.node_set_same _ _ _, .inr ⟨cause, sink, rfl, hsink, hroom, rfl⟩⟩
      · exact unchanged_or_delivered_of_listing hopen hjson
          (FileSystem.node_set_other _ _ hplace)
  | @done t mid _ hopen hjson hcsv =>
    have hmid := hjson.sameButFiles
    cases hcsv with
    | @whole csvPlace hcreate _ =>
      -- Where both paths name one file, it is the table that stays.
      by_cases hplace : place = csvPlace
      · subst hplace
        exact .inr ⟨t, .csv, _, _, hopen, .tail _ (.head _),
          (FileSystem.createAt_congr hmid).1 hcreate, FileSystem.node_set_same _ _ _, .inl rfl⟩
      · exact unchanged_or_delivered_of_listing hopen hjson
          (FileSystem.node_set_other _ _ hplace)

/-- The listing does not stand in the way of the table: where the table is not whole after it, it
would not have been whole before. -/
theorem table_not_whole {result : Except Failure Tally} {after : FileSystem}
    (h : job.EndsAt fs .table result after) :
    ∃ t, fs.openRead job.input = .ok (.ofBytes (Utf8.encode t)) ∧
      ∀ alone, ¬ Saves fs .csv job.csvOutput (catalogue t.symbols) (.ok ()) alone := by
  cases h with
  | @table t failure mid _ hopen hjson hcsv =>
    have hmid := hjson.sameButFiles
    refine ⟨t, hopen, ?_⟩
    intro alone halone
    cases halone with
    | whole hcreate hroom =>
      -- The path leads to the same place after the listing, and there is as much room there.
      have hcreate' := (FileSystem.createAt_congr hmid).2 hcreate
      cases hcsv with
      | refused hrefused =>
        rw [hcreate'] at hrefused
        cases hrefused
      | cut hplace hsink hlt _ =>
        rw [hcreate'] at hplace
        cases hplace
        rw [hmid.sink] at hsink
        exact absurd (hroom _ hsink) (Nat.not_le.2 hlt)

/-- An extraction succeeds by leaving both outputs where they are created, the table last. -/
theorem exists_places_of_ok {stage : Stage} {tally : Tally} {after : FileSystem}
    (h : job.EndsAt fs stage (.ok tally) after) :
    ∃ t jsonPlace csvPlace,
      fs.openRead job.input = .ok (.ofBytes (Utf8.encode t)) ∧
      fs.createAt job.jsonOutput = .ok jsonPlace ∧ fs.createAt job.csvOutput = .ok csvPlace ∧
      tally = (Collection.empty.add ⟨Survey.findingsFrom 0 t.lines, none⟩).close.tally ∧
      after = (fs.set jsonPlace (.file (Format.json.render (catalogue t.symbols)))).set csvPlace
        (.file (Format.csv.render (catalogue t.symbols))) := by
  cases h with
  | @done t mid _ hopen hjson hcsv =>
    have hmid := hjson.sameButFiles
    cases hcsv with
    | @whole csvPlace hcreate _ =>
      have hcreate' := (FileSystem.createAt_congr hmid).1 hcreate
      cases hjson with
      | whole hjson _ => exact ⟨t, _, csvPlace, hopen, hjson, hcreate', rfl, rfl⟩

/-- What is created last is found where it was created, and so is what was created before it at
another place, however the paths are spelled. -/
theorem contents?_after {after : FileSystem} {jsonPlace csvPlace : Place} {json csv : Bytes}
    (hjson : fs.createAt job.jsonOutput = .ok jsonPlace)
    (hcsv : fs.createAt job.csvOutput = .ok csvPlace)
    (hafter : after = (fs.set jsonPlace (.file json)).set csvPlace (.file csv)) :
    after.contents? job.csvOutput = some csv ∧
      (jsonPlace ≠ csvPlace → after.contents? job.jsonOutput = some json) := by
  have hfile := FileSystem.node_ne_directory_of_createAt hjson
  -- Neither file is a directory, so the paths lead where they led before.
  have hcsv' : (fs.set jsonPlace (.file json)).createAt job.csvOutput = .ok csvPlace :=
    (FileSystem.createAt_set hfile).2 hcsv
  have hfile' := FileSystem.node_ne_directory_of_createAt hcsv'
  constructor
  · have hcsv'' : after.createAt job.csvOutput = .ok csvPlace := by
      rw [hafter, FileSystem.createAt_set hfile']
      exact hcsv'
    apply FileSystem.contents?_of_createAt hcsv''
    rw [hafter, FileSystem.node_set_same]
  · intro hne
    have hjson' : after.createAt job.jsonOutput = .ok jsonPlace := by
      rw [hafter, FileSystem.createAt_set hfile', FileSystem.createAt_set hfile]
      exact hjson
    apply FileSystem.contents?_of_createAt hjson'
    rw [hafter, FileSystem.node_set_other _ _ hne, FileSystem.node_set_same]

end

/-! ## All runs -/

/-- **A run is staged.** It ends at one stage and no other, with the file system of that stage and
with its result, which may differ only in what a failure to write is put down to. It reports a
missing input if and only if there is nothing to open. If the table fails, it would have failed
without the listing. The only places that change are those of the outputs: each of them holds all
of an output, or as much of it as there was room for, and then the result is the failure to write
it. A run that succeeds leaves the table where its path leads, and the listing too unless both
paths create one file. -/
theorem run_staged (job : Job) (fs : FileSystem) :
    let result := (job.run FileSystem.store fs).1.result
    let after := (job.run FileSystem.store fs).2
    ∃ stage,
      job.EndsAt fs stage result after ∧
      (∀ other result' after', job.EndsAt fs other result' after' →
        other = stage ∧ after' = after ∧ SameResult result result') ∧
      ((∃ failure, result = .error failure ∧ failure.isMissingInput = true)
        ↔ fs.openRead job.input = .error .notFound) ∧
      (stage = .table → ∃ t, fs.openRead job.input = .ok (.ofBytes (Utf8.encode t)) ∧
        ∀ alone, ¬ Saves fs .csv job.csvOutput (catalogue t.symbols) (.ok ()) alone) ∧
      (∀ place, after.node place = fs.node place ∨ job.Delivered fs after result place) ∧
      ∀ tally, result = .ok tally → ∃ t, fs.openRead job.input = .ok (.ofBytes (Utf8.encode t)) ∧
        after.contents? job.csvOutput = some (Format.csv.render (catalogue t.symbols)) ∧
        ((∀ place, fs.createAt job.jsonOutput = .ok place →
            fs.createAt job.csvOutput ≠ .ok place) →
          after.contents? job.jsonOutput = some (Format.json.render (catalogue t.symbols))) := by
  intro result after
  -- Everything follows from the stage at which the run ends.
  obtain ⟨stage, h⟩ := endsAt_run job fs
  refine ⟨stage, h, ?_, missingInput_iff h, ?_, unchanged_or_delivered h, ?_⟩
  · intro other result' after' hother
    obtain ⟨hstage, hafter⟩ := stage_unique h hother
    exact ⟨hstage, hafter, (run_of_endsAt hother).1⟩
  · rintro rfl
    exact table_not_whole h
  · intro tally htally
    have hok : job.EndsAt fs stage (.ok tally) after := htally ▸ h
    obtain ⟨t, jsonPlace, csvPlace, hopen, hjson, hcsv, -, hafter⟩ := exists_places_of_ok hok
    obtain ⟨hfoundCsv, hfoundJson⟩ := contents?_after hjson hcsv hafter
    refine ⟨t, hopen, hfoundCsv, ?_⟩
    intro hpaths
    apply hfoundJson
    rintro rfl
    exact hpaths jsonPlace hjson hcsv

/-- A log with one symbol, an older listing, and room for the first bytes of a new one. -/
def smallDisk : FileSystem :=
  let disk := (FileSystem.empty.addFile (FileSystem.placeOf standard.input)
    (Utf8.encode "Symbol ID: 7 Name: a Desc: b\n".toList)).addFile
      (FileSystem.placeOf standard.jsonOutput) (List.replicate 200 0x20)
  { disk with
    sink := fun place =>
      if place = FileSystem.placeOf standard.jsonOutput then some ⟨6, .noSpace⟩ else none }

/-- The old listing is gone, six bytes of the new one are there, and the table has not been begun.
-/
theorem run_staged_smallDisk :
    let after := (standard.run FileSystem.store smallDisk).2
    standard.EndsAt smallDisk .listing
        (.error (.unwritable .json "symbols.json" (.io .noSpace))) after ∧
      after.contents? "symbols.json" = some "[\n  \x7b\n".toUTF8.toList ∧
      after.contents? "symbols.csv" = none := by
  have hresult : (standard.run FileSystem.store smallDisk).1.result
      = .error (.unwritable .json "symbols.json" (.io .noSpace)) := by
    cbv
  have hjson : (standard.run FileSystem.store smallDisk).2.contents? "symbols.json"
      = some "[\n  \x7b\n".toUTF8.toList := by
    cbv
  have hcsv : (standard.run FileSystem.store smallDisk).2.contents? "symbols.csv" = none := by
    cbv
  intro after
  obtain ⟨stage, hends, -⟩ := run_staged standard smallDisk
  -- The run is evaluated, and its result names the stage.
  have hstage : stage = .listing := by
    rw [stage_eq_ofResult hends, hresult]
    rfl
  rw [hstage, hresult] at hends
  exact ⟨hends, hjson, hcsv⟩

/-- The listing goes to the device that is full, by a path that leaves the working directory. -/
def fullJob : Job := { standard with jsonOutput := "../../../../../../../../../../dev/full" }

/-- An empty log in the working directory. -/
def fullDisk : FileSystem :=
  FileSystem.empty.addFile (FileSystem.placeOf standard.input) []

/-- **A file that can be created need not come out whole.** Here the input can be read and both
outputs be created, and the run fails; so it is none of the following: an input that cannot be
opened or read, a listing or a table that cannot be created, a success. -/
theorem run_fullDisk :
    let result := (fullJob.run FileSystem.store fullDisk).1.result
    result = .error (.unwritable .json fullJob.jsonOutput (.io .noSpace)) ∧
      ¬ ((∃ fault, fullDisk.openRead fullJob.input = .error fault) ∨
        (∃ fault, result = .error (.io fault)) ∨
        (∃ fault, fullDisk.createAt fullJob.jsonOutput = .error fault) ∨
        (∃ place contents fault,
          (fullDisk.set place (.file contents)).createAt fullJob.csvOutput = .error fault ∧
          fullDisk.createAt fullJob.jsonOutput = .ok place) ∨
        ∃ tally, result = .ok tally) := by
  have hresult : (fullJob.run FileSystem.store fullDisk).1.result
      = .error (.unwritable .json fullJob.jsonOutput (.io .noSpace)) := by
    cbv
  intro result
  have hopen : fullDisk.openRead fullJob.input = .ok (.ofBytes []) := rfl
  have hjson : fullDisk.createAt fullJob.jsonOutput = .ok FileSystem.fullDevice := rfl
  have hcsv : fullDisk.createAt fullJob.csvOutput
      = .ok (FileSystem.placeOf fullJob.csvOutput) := rfl
  refine ⟨hresult, ?_⟩
  simp only [result, hresult, hopen, hjson]
  rintro (⟨_, ⟨⟩⟩ | ⟨_, ⟨⟩⟩ | ⟨_, ⟨⟩⟩ | ⟨place, contents, fault, hrefused, hplace⟩ | ⟨_, ⟨⟩⟩)
  -- The device stands where no directory is, so writing to it does not refuse the table.
  have hfile := FileSystem.node_ne_directory_of_createAt (hjson.trans hplace)
  rw [(FileSystem.createAt_set hfile).2 hcsv] at hrefused
  cases hrefused

end Job

end SymbolLog
