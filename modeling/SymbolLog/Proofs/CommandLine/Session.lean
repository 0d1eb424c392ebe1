/-
What a session leaves behind, and what its switches have to do with it.

A session has three dials that ask for more or less to be said: one for the progress, one for
the counters, and a filter for the events, which comes from outside and may be any. None of them
reaches the extraction, which is run before any of them is looked at. So the files and the code at
the end depend on the paths and on what stands in the file system, and the two channels
depend on one dial or on the other two, never on all three. The time that is printed with the
counters is the machine's; two sessions are compared on one machine, so it is the same for both.

How much progress is printed depends on the stage at which the extraction ends. Each stage that is
left behind has printed one line, so what is printed is a beginning of the four lines of a
session that succeeds, and the code tells whether it is all of them (`progress_of_endsAt`).
-/
import SymbolLog.CommandLine.Session
import SymbolLog.Proofs.CommandLine.Arguments
import SymbolLog.Proofs.Job.Repetition

set_option autoImplicit false

namespace SymbolLog

/-! ## Progress -/

namespace Job

/-- How many steps have been reported when an extraction ends at a stage. -/
def Stage.steps : Stage → Nat
  | .opening => 0
  | .reading => 1
  | .listing => 2
  | .table => 3
  | .done => 4

/-- The steps of an extraction that succeeds. -/
def plan (job : Job) (count : Nat) : List Progress :=
  [.reading job.input, .found count, .wrote .json job.jsonOutput, .wrote .csv job.csvOutput]

section
variable {job : Job} {fs : FileSystem}

/-- A log that cannot be read to its end is announced, and nothing else is. -/
theorem progress_of_fault {source : Source} {fault : Fault}
    (hopen : fs.openRead job.input = .ok source)
    (hfault : (Survey.ofReader (.ofSource source)).fault = some fault) :
    (job.run FileSystem.store fs).1.progress = [.reading job.input] := by
  simp only [Job.run, FileSystem.store, bind, StateT.bind, hopen, hfault]
  rfl

/-- After a log that was read to its end, the symbols are counted and the outputs follow. -/
theorem progress_of_text {t : Text}
    (hopen : fs.openRead job.input = .ok (.ofBytes (Utf8.encode t))) :
    (job.run FileSystem.store fs).1.progress
      = .reading job.input :: .found (catalogue t.symbols).length ::
          (deliver FileSystem.store (catalogue t.symbols) job.outputs fs).1.progress := by
  have hsymbols := symbols_close_add t
  have hfault : (Survey.ofReader (.ofSource (.ofBytes (Utf8.encode t)))).fault = none := by
    rw [Survey.ofReader_encode]
  rw [run_of_source hopen hfault, Survey.ofReader_encode, hsymbols, reportOf, hsymbols]

/-- What has been reported when an extraction ends is a beginning of the plan. -/
theorem progress_of_endsAt {stage : Stage} {result : Except Failure Tally} {after : FileSystem}
    (h : job.EndsAt fs stage result after) :
    ∃ count, (2 ≤ stage.steps → ∃ t, fs.openRead job.input = .ok (.ofBytes (Utf8.encode t)) ∧
        count = (catalogue t.symbols).length) ∧
      (job.run FileSystem.store fs).1.progress = (job.plan count).take stage.steps := by
  -- Stage by stage: how far the job has come decides how much of its plan is announced.
  cases h with
  | opening hopen =>
    refine ⟨0, by simp [Stage.steps], ?_⟩
    rw [run_of_openRead_error hopen]
    rfl
  | directory hopen =>
    refine ⟨0, by simp [Stage.steps], ?_⟩
    rw [progress_of_fault hopen Survey.fault_ofDirectory]
    rfl
  | malformed hopen hchunk =>
    refine ⟨0, by simp [Stage.steps], ?_⟩
    rw [progress_of_fault hopen (Survey.fault_of_malformedAt hchunk)]
    rfl
  | @listing t _ _ hopen hjson =>
    obtain ⟨_, _, _, hsave⟩ := hjson.save_of_error
    refine ⟨_, fun _ => ⟨t, hopen, rfl⟩, ?_⟩
    rw [progress_of_text hopen, outputs, deliver_of_save_error hsave]
    rfl
  | @table t _ _ _ hopen hjson hcsv =>
    obtain ⟨_, _, _, hsave⟩ := hcsv.save_of_error
    refine ⟨_, fun _ => ⟨t, hopen, rfl⟩, ?_⟩
    rw [progress_of_text hopen, outputs, deliver_of_save_ok hjson.save_of_ok,
      deliver_of_save_error hsave]
    rfl
  | @done t _ _ hopen hjson hcsv =>
    refine ⟨_, fun _ => ⟨t, hopen, rfl⟩, ?_⟩
    rw [progress_of_text hopen, outputs, deliver_of_save_ok hjson.save_of_ok,
      deliver_of_save_ok hcsv.save_of_ok]
    rfl

/-- An extraction fails unless it ends at the last stage. -/
theorem result_of_endsAt {stage : Stage} {result : Except Failure Tally} {after : FileSystem}
    (h : job.EndsAt fs stage result after) :
    (∃ tally, result = .ok tally ∧ stage.steps = 4) ∨
      ∃ failure, result = .error failure ∧ stage.steps ≠ 4 := by
  cases h with
  | opening hopen => exact .inr ⟨_, rfl, by decide⟩
  | directory hopen => exact .inr ⟨_, rfl, by decide⟩
  | malformed hopen hchunk => exact .inr ⟨_, rfl, by decide⟩
  | listing hopen hjson => exact .inr ⟨_, rfl, by decide⟩
  | table hopen hjson hcsv => exact .inr ⟨_, rfl, by decide⟩
  | done hopen hjson hcsv => exact .inl ⟨_, rfl, rfl⟩

end

end Job

/-! ## Sessions -/

namespace CommandLine

/-- The lines that a session prints when it succeeds and is not told to be quiet. -/
def progressLines (job : Job) (count : Nat) : List String :=
  ["Reading log file: " ++ job.input,
    "Found " ++ toString count ++ " unique symbols.",
    "Wrote JSON to " ++ job.jsonOutput,
    "Wrote CSV to " ++ job.csvOutput]

theorem map_render_plan (job : Job) (count : Nat) :
    (job.plan count).map Progress.render = progressLines job count := by
  rfl

/-- Once its arguments are read, a session is an extraction and a look at its report. -/
theorem executeWith_of_parse {arguments : List String} {request : Request}
    (h : parse arguments = .ok request) (filter : Filter) (fs : FileSystem) :
    executeWith FileSystem.store arguments filter fs
      = (conclude request filter (request.job.run FileSystem.store fs).1
            (request.job.run FileSystem.store fs).2.elapsed,
          (request.job.run FileSystem.store fs).2) := by
  simp only [executeWith, h]
  rfl

/-- What a session says besides its progress. -/
def messagesOf (report : Report) (elapsed : Nat) (debug : Bool) (filter : Filter) : List String :=
  eventLines (filter debug) report.events ++
    match report.result with
    | .error failure => ["Error: " ++ failure.message]
    | .ok tally => if debug then statistics tally elapsed else []

theorem conclude_eq (request : Request) (filter : Filter) (report : Report) (elapsed : Nat) :
    conclude request filter report elapsed
      = ⟨if report.result.isOk then 0 else 1, progressText request.quiet report.progress,
          messagesOf report elapsed request.debug filter⟩ := by
  unfold conclude messagesOf
  cases report.result with
  | error failure => rfl
  | ok tally => rfl

/-- **How much a session says does not matter to what it does.** Paths that are accepted are
accepted without switches, and then with any switches in front. However they are given, a
session ends at the same stage of the extraction, with the same code and the same files,
whatever the switches and the filter are. Its messages do not depend on whether it is quiet. What
it prints depends on nothing else: nothing if it is, and otherwise one line for each stage that
has been left behind. The code is 0 if these are all four lines; if they are not it is 1, and the
last message is the failure. -/
theorem executeWith_of_isAccepted (fs : FileSystem) {job : Job} (haccepted : IsAccepted job) :
    (∃ arguments, parse arguments = .ok ⟨job, false, false⟩) ∧
      (∀ arguments, parse arguments = .ok ⟨job, false, false⟩ → ∀ debug quiet,
        parse (switches debug quiet ++ arguments) = .ok ⟨job, debug, quiet⟩) ∧
      ∃ stage result after count, ∃ messages : Bool → Filter → List String,
        job.EndsAt fs stage result after ∧ (job.run FileSystem.store fs).1.result = result ∧
          (2 ≤ stage.steps → ∃ t, fs.openRead job.input = .ok (.ofBytes (Utf8.encode t)) ∧
            count = (catalogue t.symbols).length) ∧
          (∀ arguments debug quiet filter, parse arguments = .ok ⟨job, debug, quiet⟩ →
            executeWith FileSystem.store arguments filter fs
              = (⟨if stage.steps = 4 then 0 else 1,
                  if quiet then "" else ofLines ((progressLines job count).take stage.steps),
                  messages debug filter⟩, after)) ∧
          (stage.steps ≠ 4 → ∃ failure, result = .error failure ∧ ∀ debug filter, ∃ events,
            messages debug filter = events ++ ["Error: " ++ failure.message]) := by
  refine ⟨⟨pathArguments job, parse_pathArguments (isAccepted_iff.1 haccepted)⟩,
    fun _ => parse_switches_append, ?_⟩
  obtain ⟨stage, hends⟩ := job.endsAt_run fs
  obtain ⟨count, hcount, hprogress⟩ := Job.progress_of_endsAt hends
  refine ⟨stage, _, _, count,
    messagesOf (job.run FileSystem.store fs).1 (job.run FileSystem.store fs).2.elapsed, hends,
    rfl, hcount, ?_, ?_⟩
  · intro arguments debug quiet filter hparse
    have houtput : progressText quiet (job.run FileSystem.store fs).1.progress
        = if quiet then "" else ofLines ((progressLines job count).take stage.steps) := by
      rw [progressText, hprogress, List.map_take, map_render_plan]
    -- The code is that of the result, and only the last stage has a result without a failure.
    have hcode : (if (job.run FileSystem.store fs).1.result.isOk then 0 else 1)
        = if stage.steps = 4 then 0 else 1 := by
      rcases Job.result_of_endsAt hends with ⟨tally, hresult, hsteps⟩ | ⟨failure, hresult, hsteps⟩
      · simp [hresult, hsteps, Except.isOk, Except.toBool]
      · simp [hresult, hsteps, Except.isOk, Except.toBool]
    rw [executeWith_of_parse hparse, conclude_eq, houtput, hcode]
  · intro hsteps
    rcases Job.result_of_endsAt hends with ⟨tally, -, hdone⟩ | ⟨failure, hresult, -⟩
    · exact absurd hdone hsteps
    · refine ⟨failure, hresult, ?_⟩
      intro debug filter
      exact ⟨eventLines (filter debug) (job.run FileSystem.store fs).1.events,
        by rw [messagesOf, hresult]⟩

/-- A session whose table cannot be created, because the listing stands in its path, and the same
session with every switch. -/
theorem executeWith_nestedJob :
    let plain := executeWith FileSystem.store
      ["-i", "log", "--json-output", "a", "--csv-output=a/b"] (filterOf none) Job.nestedDisk
    let other := executeWith FileSystem.store
      ["-q", "--debug", "--csv-output", "a/b", "--json-output=a", "-ilog"] (filterOf (some "TRACE"))
      Job.nestedDisk
    plain.1.code = 1 ∧ other.1.code = 1 ∧
      plain.1.output = "Reading log file: log\nFound 1 unique symbols.\nWrote JSON to a\n" ∧
      other.1.output = "" ∧ other.2 = plain.2 := by
  intro plain other
  have hplain : parse ["-i", "log", "--json-output", "a", "--csv-output=a/b"]
      = .ok ⟨Job.nestedJob, false, false⟩ := by rfl
  have hother : parse ["-q", "--debug", "--csv-output", "a/b", "--json-output=a", "-ilog"]
      = .ok ⟨Job.nestedJob, true, true⟩ := by rfl
  obtain ⟨-, -, stage, result, after, count, messages, hends, hrun, hcount, hall, -⟩ :=
    executeWith_of_isAccepted Job.nestedDisk ⟨_, _, _, hplain⟩
  have hresult : result = .error (.unwritable .csv "a/b" (.io .notDirectory)) := by
    rw [← hrun]
    cbv
  have hstage : stage = .table := by
    rw [Job.stage_eq_ofResult hends, hresult]
    rfl
  have hfirst := hall _ false false (filterOf none) hplain
  have hsecond := hall _ true true (filterOf (some "TRACE")) hother
  have hprogress : (Job.nestedJob.run FileSystem.store Job.nestedDisk).1.progress
      = [.reading "log", .found 1, .wrote .json "a"] := by
    cbv
  refine ⟨?_, ?_, ?_, ?_, ?_⟩
  · simp only [plain, hfirst, hstage]
    rfl
  · simp only [other, hsecond, hstage]
    rfl
  · simp only [plain, executeWith_of_parse hplain, conclude_eq, hprogress]
    rfl
  · simp only [other, hsecond]
    rfl
  · simp only [plain, other, hfirst, hsecond]

end CommandLine

end SymbolLog
