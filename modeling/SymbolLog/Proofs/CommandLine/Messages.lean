/-
What a session tells of its log.

A session that succeeds tells its log from the first line to the last: of each line that gave no
symbol, then of each symbol whose id stood before it, then what came of it all. `chronicle` is
that, said from the lines of the log and the two paths alone. The counters and the time stand at
the end, and a session leaves nothing else on the channel for messages. A session that is not to
trace leaves out the lines that were not looked into, and only those.

Each message is one line of the channel. For numbers and ids that is a matter of their characters,
which are digits, and for the time also of the units; a path may hold what it likes, so it has to
be said of the paths.
-/
import SymbolLog.Proofs.Collection.Events
import SymbolLog.Proofs.CommandLine.Session
import SymbolLog.Proofs.Job.Outputs

set_option autoImplicit false

namespace SymbolLog

/-! ## The line of an event -/

/-- The line of an event, as it is shown. -/
def Event.line : Event → String
  | .noSymbol number => "TRACE symex::pipeline::stream: no symbol on line line=" ++ toString number
  | .unmatched number .envelope =>
    "DEBUG symex::pipeline::stream: marker without full match, skipping line=" ++ toString number
      ++ " kind=Envelope"
  | .unmatched number .raw =>
    "DEBUG symex::pipeline::stream: marker without full match, skipping line=" ++ toString number
      ++ " kind=Raw"
  | .replaced id =>
    "DEBUG symex::pipeline::stream: duplicate symbol id, keeping later entry id="
      ++ String.ofList id
  | .complete matched unique =>
    "INFO symex::pipeline::stream: symbol extraction complete matched=" ++ toString matched
      ++ " unique=" ++ toString unique
  | .written path .json count =>
    "DEBUG symex::output_format: output written path=" ++ path ++ " kind=\"JSON\" count="
      ++ toString count
  | .written path .csv count =>
    "DEBUG symex::output_format: output written path=" ++ path ++ " kind=\"CSV\" count="
      ++ toString count

theorem Event.render_eq_line (event : Event) : event.render = event.line := by
  unfold render body line
  -- As lists of characters both sides have one normal form.
  apply String.toList_inj.1
  cases event with
  | noSymbol number => simp [level, Level.label, origin, toString]
  | unmatched number packing =>
    cases packing with
    | envelope => simp [level, Level.label, origin, packingName, toString]
    | raw => simp [level, Level.label, origin, packingName, toString]
  | replaced id => simp [level, Level.label, origin]
  | complete matched unique => simp [level, Level.label, origin, toString]
  | written path format count =>
    cases format with
    | json => simp [level, Level.label, origin, Format.label, toString]
    | csv => simp [level, Level.label, origin, Format.label, toString]

/-! ## One line each -/

namespace Text

instance (line : Text) : Decidable line.OneLine :=
  inferInstanceAs (Decidable ('\r' ∉ line ∧ '\n' ∉ line))

theorem OneLine.append {s t : Text} (hs : s.OneLine) (ht : t.OneLine) : (s ++ t).OneLine :=
  ⟨by simp [hs.1, ht.1], by simp [hs.2, ht.2]⟩

/-- No digit ends a line. -/
theorem oneLine_of_isDigit {t : Text} (h : ∀ c ∈ t, isDigit c = true) : t.OneLine := by
  constructor
  · intro hreturn
    exact absurd (h _ hreturn) (by decide)
  · intro hfeed
    exact absurd (h _ hfeed) (by decide)

end Text

open Text (OneLine)

theorem oneLine_toString (n : Nat) : OneLine (toString n).toList := by
  apply Text.oneLine_of_isDigit
  intro c hc
  rw [Nat.toString_eq_repr, Nat.toList_repr] at hc
  have hdigit := Nat.isDigit_of_mem_toDigits (by decide) (by decide) hc
  simpa [isDigit, Char.isDigit, Char.le_def] using hdigit

theorem oneLine_append {s t : String} (hs : OneLine s.toList) (ht : OneLine t.toList) :
    OneLine (s ++ t).toList := by
  rw [String.toList_append]
  exact hs.append ht

namespace Duration

/-- The decimals of less than a unit are digits. -/
theorem isDigit_of_mem_decimals {unit places part : Nat} (hpart : part < unit) {c : Char}
    (h : c ∈ decimals unit places part) : isDigit c = true := by
  induction places generalizing part with
  | zero => cases h
  | succ places ih =>
    rw [decimals] at h
    split at h
    · cases h
    · rw [List.mem_cons] at h
      rcases h with rfl | hrest
      · -- The part is less than a unit, so ten times the part is less than ten units.
        have hfirst : part * 10 / unit < 10 :=
          Nat.div_lt_of_lt_mul (Nat.mul_lt_mul_of_pos_right hpart (by decide))
        have hdigit := Nat.isDigit_digitChar.trans (decide_eq_true hfirst)
        simpa [isDigit, Char.isDigit, Char.le_def] using hdigit
      · exact ih (Nat.mod_lt _ (Nat.zero_lt_of_lt hpart)) hrest

/-- A time in some unit is digits, a point and the name of the unit. -/
theorem oneLine_inUnits {unit : Nat} (hunit : 0 < unit) {name : String}
    (hname : OneLine name.toList) (places nanoseconds : Nat) :
    OneLine (inUnits unit places name nanoseconds).toList := by
  have hdecimals : OneLine (decimals unit places (nanoseconds % unit)) :=
    Text.oneLine_of_isDigit fun c => isDigit_of_mem_decimals (Nat.mod_lt _ hunit)
  rw [inUnits]
  refine oneLine_append (oneLine_append (oneLine_toString _) ?_) hname
  split
  · decide
  · refine oneLine_append (by decide) ?_
    rwa [String.toList_ofList]

/-- A time is one line, whatever its unit. -/
theorem oneLine_render (nanoseconds : Nat) : OneLine (render nanoseconds).toList := by
  rw [render]
  split
  · exact oneLine_inUnits (by decide) (by decide) _ _
  split
  · exact oneLine_inUnits (by decide) (by decide) _ _
  split
  · exact oneLine_inUnits (by decide) (by decide) _ _
  · exact oneLine_inUnits (by decide) (by decide) _ _

end Duration

/-- What an event quotes as it stands. -/
def Event.quoted : Event → Text
  | .replaced id => id
  | .written path _ _ => path.toList
  | _ => []

/-- What is told of a line quotes nothing of it. -/
theorem Event.quoted_of_ofFinding? {number : Nat} {finding : Finding} {event : Event}
    (h : ofFinding? number finding = some event) : event.quoted = [] := by
  cases finding with
  | blank => cases h; rfl
  | unmarked packing => cases h; rfl
  | unmatched packing => cases h; rfl
  | symbol packing s => cases h

/-- The line of an event is one line if what it quotes is; everything else in it is fixed or a
number. -/
theorem Event.oneLine_line {event : Event} (h : OneLine event.quoted) :
    OneLine event.line.toList := by
  cases event with
  | noSymbol number => exact oneLine_append (by decide) (oneLine_toString number)
  | unmatched number packing =>
    have hnumber := oneLine_append
      (s := "DEBUG symex::pipeline::stream: marker without full match, skipping line=")
      (by decide) (oneLine_toString number)
    cases packing with
    | envelope => exact oneLine_append hnumber (by decide)
    | raw => exact oneLine_append hnumber (by decide)
  | replaced id =>
    have hid : OneLine (String.ofList id).toList := by rwa [String.toList_ofList]
    exact oneLine_append (by decide) hid
  | complete matched unique =>
    have hmatched := oneLine_append
      (s := "INFO symex::pipeline::stream: symbol extraction complete matched=")
      (by decide) (oneLine_toString matched)
    exact oneLine_append (oneLine_append hmatched (by decide)) (oneLine_toString unique)
  | written path format count =>
    have hpath := oneLine_append (s := "DEBUG symex::output_format: output written path=")
      (by decide) h
    cases format with
    | json =>
      exact oneLine_append (oneLine_append hpath (by decide)) (oneLine_toString count)
    | csv =>
      exact oneLine_append (oneLine_append hpath (by decide)) (oneLine_toString count)

namespace CommandLine

/-- The counters that are printed, with what is printed before them. -/
def counters (tally : Tally) : List (String × Nat) :=
  [("  Lines read: ", tally.lines), ("  Blank lines: ", tally.blank),
    ("  Envelope lines: ", tally.envelopes), ("  Raw lines: ", tally.raw),
    ("  Lines without marker: ", tally.unmarked), ("  Unmatched marker lines: ", tally.unmatched),
    ("  Symbols matched: ", tally.matched), ("  Duplicates discarded: ", tally.discarded),
    ("  Unique symbols: ", tally.unique)]

/-- The block at the end: its title, the counters, the time. -/
theorem statistics_eq (tally : Tally) (elapsed : Nat) :
    statistics tally elapsed
      = "Final statistics:" :: ((counters tally).map (fun c => c.1 ++ toString c.2) ++
          ["  Processing time: " ++ Duration.render elapsed]) :=
  rfl

theorem oneLine_statistics (tally : Tally) (elapsed : Nat) :
    ∀ line ∈ statistics tally elapsed, OneLine line.toList := by
  have hlabels : ∀ label ∈ (counters tally).map Prod.fst, OneLine label.toList := by
    show ∀ label ∈ (counters .zero).map Prod.fst, OneLine label.toList
    decide
  rw [statistics_eq, List.forall_mem_cons, List.forall_mem_append, List.forall_mem_map,
    List.forall_mem_singleton]
  refine ⟨by decide, ?_, oneLine_append (by decide) (Duration.oneLine_render elapsed)⟩
  intro counter hcounter
  exact oneLine_append (hlabels _ (List.mem_map_of_mem hcounter)) (oneLine_toString counter.2)

/-! ## The channel for messages -/

/-- Messages on the channel are lines that are ended one by one. -/
theorem toList_ofLines (lines : List String) :
    (ofLines lines).toList = Text.ended (lines.map String.toList) := by
  rw [ofLines, String.toList_join, Text.ended, List.flatMap_map, List.flatMap_map]
  simp only [String.toList_append]
  rfl

/-- A session says some lines and nothing else. -/
structure Exit.Says (exit : Exit) (lines : List String) : Prop where
  messages : exit.messages = lines
  /-- The messages are told apart on the channel: each of them is a line. -/
  channel : Text.lines (ofLines exit.messages).toList = lines.map String.toList

/-- Messages without line ends are told apart. -/
theorem Exit.Says.of_oneLine {exit : Exit} {lines : List String} (h : exit.messages = lines)
    (hlines : ∀ line ∈ lines, OneLine line.toList) : exit.Says lines where
  messages := h
  channel := by
    rw [h, toList_ofLines]
    apply Text.lines_ended
    rwa [List.forall_mem_map]

end CommandLine

/-! ## From the first line of the log to the counters -/

/-- What is collected from a text. -/
abbrev Text.collected (t : Text) : Collection :=
  Collection.empty.add ⟨Survey.findingsFrom 0 t.lines, none⟩

theorem Text.lines_collected (t : Text) : t.collected.close.tally.lines = t.lines.length := by
  show t.collected.tally.lines = _
  rw [Collection.lines_add, Survey.findingsFrom, List.length_map, List.length_zipIdx]
  exact Nat.zero_add _

namespace Job

/-- What an extraction that succeeds tells of its log: of each line that gave no symbol, by its
number; of each symbol whose id stood before it; how many symbols there were and how many of them
have ids of their own; and how many were written to each output. -/
def chronicle (job : Job) (t : Text) : List Event :=
  let unique := (t.symbols.map Symbol.id).toFinset.card
  ((t.lines.zipIdx 1).filterMap fun line => Event.ofFinding? line.2 (Finding.ofLine line.1)) ++
    (repeats t.symbols).map .replaced ++
    [.complete t.symbols.length unique,
      .written job.jsonOutput .json unique, .written job.csvOutput .csv unique]

/-- A chronicle is what the survey tells, then what closing tells, then what is told of the
outputs. -/
theorem chronicle_eq (job : Job) (t : Text) :
    job.chronicle t
      = Survey.events ⟨Survey.findingsFrom 0 t.lines, none⟩ ++ t.collected.close.events ++
        [.written job.jsonOutput .json (catalogue t.symbols).length,
          .written job.csvOutput .csv (catalogue t.symbols).length] := by
  rw [chronicle, ← Survey.events_findingsFrom t.lines none, Collection.events_close,
    collected_of_text, ← length_catalogue]
  simp only [List.append_assoc]
  rfl

/-- A chronicle agrees with the counters. -/
theorem told_chronicle (job : Job) (t : Text) :
    t.collected.close.tally.Told (job.chronicle t) := by
  have htold := Collection.told_close
    (Collection.told_add Collection.told_empty ⟨Survey.findingsFrom 0 t.lines, none⟩)
    (Collection.discarded_add .empty _)
  rw [List.nil_append] at htold
  -- What is told of the outputs is none of what is counted.
  rw [chronicle_eq]
  constructor
  · rw [List.countP_append, htold.unmatched]
    rfl
  · rw [List.countP_append, htold.noSymbol]
    rfl
  · rw [List.countP_append, htold.replaced]
    rfl

/-- The events of an extraction that succeeds are its chronicle. -/
theorem events_of_ok {job : Job} {fs : FileSystem} {tally : Tally}
    (hrun : (job.run FileSystem.store fs).1.result = .ok tally) :
    ∃ t, fs.contents? job.input = some (Utf8.encode t) ∧ tally = t.collected.close.tally ∧
      (job.run FileSystem.store fs).1.events = job.chronicle t := by
  obtain ⟨stage, hends⟩ := endsAt_run job fs
  rw [hrun] at hends
  generalize (job.run FileSystem.store fs).2 = after at hends
  cases hends with
  | @done t mid _ hopen hjson hcsv =>
    refine ⟨t, FileSystem.contents?_of_openRead hopen, rfl, ?_⟩
    have hfault : (Survey.ofReader (.ofSource (.ofBytes (Utf8.encode t)))).fault = none := by
      rw [Survey.ofReader_encode]
    rw [run_of_source hopen hfault, Survey.ofReader_encode, symbols_close_add, reportOf, outputs,
      deliver_of_save_ok hjson.save_of_ok, deliver_of_save_ok hcsv.save_of_ok, chronicle_eq]
    rfl

/-- An extraction takes the time that the machine takes, wherever its files are. -/
theorem elapsed_run (job : Job) (fs : FileSystem) :
    (job.run FileSystem.store fs).2.elapsed = fs.elapsed := by
  obtain ⟨stage, hends⟩ := endsAt_run job fs
  generalize (job.run FileSystem.store fs).1.result = result at hends
  generalize (job.run FileSystem.store fs).2 = after at hends ⊢
  cases hends with
  | opening _ => rfl
  | directory _ => rfl
  | malformed _ _ => rfl
  | listing _ hjson => exact hjson.sameButFiles.elapsed
  | table _ hjson hcsv => exact (hjson.sameButFiles.trans hcsv.sameButFiles).elapsed
  | done _ hjson hcsv => exact (hjson.sameButFiles.trans hcsv.sameButFiles).elapsed

end Job

namespace CommandLine

theorem filterOf_trace (event : Event) : filterOf (some "trace") true event = true := by
  have hthreshold : thresholdOf (some "trace") true = some .trace := by cbv
  rw [filterOf, hthreshold]
  cases event <;> rfl

/-- Without a threshold from outside, only what is traced is left out. -/
theorem filterOf_none (event : Event) :
    filterOf none true event = decide (event.level ≠ .trace) := by
  cases event <;> rfl

/-- The messages of a session that succeeds with its counters printed. -/
theorem messages_of_ok {arguments : List String} {request : Request} {fs : FileSystem}
    {tally : Tally} (hparse : parse arguments = .ok request) (hdebug : request.debug = true)
    (hrun : (request.job.run FileSystem.store fs).1.result = .ok tally) (level : Option String) :
    (execute FileSystem.store arguments level fs).1.messages
      = (((request.job.run FileSystem.store fs).1.events.filter (filterOf level true)).map
          Event.line) ++ statistics tally fs.elapsed := by
  have hrender : Event.render = Event.line := funext Event.render_eq_line
  rw [execute, executeWith_of_parse hparse, conclude_eq, messagesOf, eventLines, hrun, hdebug,
    hrender, Job.elapsed_run]
  rfl

/-- Only an extraction that succeeds ends a session with the code 0. -/
theorem exists_tally_of_code {arguments : List String} {request : Request} {fs : FileSystem}
    {level : Option String} (hparse : parse arguments = .ok request)
    (hcode : (execute FileSystem.store arguments level fs).1.code = 0) :
    ∃ tally, (request.job.run FileSystem.store fs).1.result = .ok tally := by
  rw [execute, executeWith_of_parse hparse, conclude_eq] at hcode
  cases hresult : (request.job.run FileSystem.store fs).1.result with
  | ok tally => exact ⟨tally, rfl⟩
  | error failure =>
    rw [hresult] at hcode
    cases hcode

/-- The control characters of Unicode: those of ASCII, and the 32 from U+0080 on. -/
def IsUnicodeControl (c : Char) : Prop := isControl c = true ∨ 0x80 ≤ c.toNat ∧ c.toNat ≤ 0x9f

/-- The ends of lines are control characters. -/
theorem oneLine_of_not_isUnicodeControl {t : Text} (h : ∀ c ∈ t, ¬ IsUnicodeControl c) :
    OneLine t := by
  constructor
  · intro hreturn
    exact h _ hreturn (.inl (by decide))
  · intro hfeed
    exact h _ hfeed (.inl (by decide))

/-- What a chronicle quotes is on one line, if the paths are. -/
theorem oneLine_quoted {job : Job} {t : Text}
    (hjson : OneLine job.jsonOutput.toList) (hcsv : OneLine job.csvOutput.toList) :
    ∀ event ∈ job.chronicle t, OneLine event.quoted := by
  rw [Job.chronicle, List.forall_mem_append, List.forall_mem_append]
  refine ⟨⟨?_, ?_⟩, ?_⟩
  · intro event hevent
    obtain ⟨line, -, hfinding⟩ := List.mem_filterMap.1 hevent
    rw [Event.quoted_of_ofFinding? hfinding]
    exact ⟨List.not_mem_nil, List.not_mem_nil⟩
  · rw [List.forall_mem_map]
    intro id hid
    obtain ⟨s, hs, rfl⟩ := exists_of_mem_repeats hid
    exact Text.oneLine_of_isDigit (Text.isCanonical_of_mem_symbols hs).id_digits
  · intro event hevent
    simp only [List.mem_cons, List.not_mem_nil, or_false] at hevent
    rcases hevent with rfl | rfl | rfl
    · exact ⟨List.not_mem_nil, List.not_mem_nil⟩
    · exact hjson
    · exact hcsv

/-- **What is told agrees with what is counted.** A session that prints its counters, that
succeeds, and whose outputs have paths without control characters, says the chronicle of its log,
each event on a line of its own, and then eleven lines; without a threshold from outside, the
lines that are only traced are left out and nothing else. Three of the numbers in the eleven lines
are counts of events: of lines that were not matched, of symbols that were discarded, and, as the
sum of the blank lines and those without a mark, of lines without a symbol. Two more are those of
the event that says what came of it all. -/
theorem messages_of_success (fs : FileSystem) {arguments : List String} {request : Request}
    {level : Option String} (hparse : parse arguments = .ok request)
    (hdebug : request.debug = true)
    (hpaths : ∀ path ∈ [request.job.jsonOutput, request.job.csvOutput],
      ∀ c ∈ path.toList, ¬ IsUnicodeControl c)
    (hcode : (execute FileSystem.store arguments level fs).1.code = 0) :
    ∃ t tally,
      fs.contents? request.job.input = some (Utf8.encode t) ∧
      (request.job.run FileSystem.store fs).1.result = .ok tally ∧
      let events := request.job.chronicle t
      let block :=
        ["Final statistics:",
          "  Lines read: " ++ toString t.lines.length,
          "  Blank lines: " ++ toString tally.blank,
          "  Envelope lines: " ++ toString tally.envelopes,
          "  Raw lines: " ++ toString tally.raw,
          "  Lines without marker: " ++ toString tally.unmarked,
          "  Unmatched marker lines: " ++ toString (events.countP Event.isUnmatched),
          "  Symbols matched: " ++ toString t.symbols.length,
          "  Duplicates discarded: " ++ toString (events.countP Event.isReplaced),
          "  Unique symbols: " ++ toString (t.symbols.map Symbol.id).toFinset.card,
          "  Processing time: " ++ Duration.render fs.elapsed]
      (execute FileSystem.store arguments (some "trace") fs).1.Says
          (events.map Event.line ++ block) ∧
        (execute FileSystem.store arguments none fs).1.Says
          ((events.filter fun event => event.level ≠ .trace).map Event.line ++ block) ∧
        events.countP Event.isUnmatched = tally.unmatched ∧
        events.countP Event.isNoSymbol = tally.blank + tally.unmarked ∧
        events.countP Event.isReplaced = tally.discarded ∧
        tally.lines = t.lines.length ∧ tally.matched = t.symbols.length ∧
        tally.unique = (t.symbols.map Symbol.id).toFinset.card := by
  obtain ⟨tally, hrun⟩ := exists_tally_of_code hparse hcode
  obtain ⟨t, hinput, rfl, hevents⟩ := Job.events_of_ok hrun
  obtain ⟨hmatched, hunique, -⟩ := tally_of_text t
  -- From here on only what the counters have to do with the text matters.
  have hlines := Text.lines_collected t
  have htold := Job.told_chronicle request.job t
  generalize t.collected.close.tally = tally at *
  have honeLine : ∀ event ∈ request.job.chronicle t, OneLine event.line.toList := by
    have hjson := oneLine_of_not_isUnicodeControl (hpaths _ List.mem_cons_self)
    have hcsv := oneLine_of_not_isUnicodeControl (hpaths _ (.tail _ (.head _)))
    intro event hevent
    exact Event.oneLine_line (oneLine_quoted hjson hcsv event hevent)
  -- The filter of the one session lets all events through, that of the other all but the traced.
  have htrace := messages_of_ok hparse hdebug hrun (some "trace")
  have hplain := messages_of_ok hparse hdebug hrun none
  rw [hevents, List.filter_eq_self.2 fun event _ => filterOf_trace event] at htrace
  rw [hevents, funext filterOf_none] at hplain
  rw [length_catalogue] at hunique
  refine ⟨t, tally, hinput, hrun, ?_⟩
  intro events block
  -- The counters are printed from the tally, and the events agree with it.
  have hblock : statistics tally fs.elapsed = block := by
    simp only [block, events, htold.unmatched, htold.replaced, ← hmatched, ← hunique, ← hlines]
    rfl
  rw [← hblock]
  refine ⟨.of_oneLine htrace ?_, .of_oneLine hplain ?_, htold.unmatched, htold.noSymbol,
    htold.replaced, hlines, hmatched, hunique⟩
  · rw [List.forall_mem_append, List.forall_mem_map]
    exact ⟨honeLine, oneLine_statistics tally fs.elapsed⟩
  · rw [List.forall_mem_append, List.forall_mem_map]
    refine ⟨?_, oneLine_statistics tally fs.elapsed⟩
    intro event hevent
    exact honeLine event (List.mem_filter.1 hevent).1

/-- Two symbols with one id, and between them a line of each other sort. -/
def mixedLog : Text :=
  "Symbol ID: 7 Name: a Desc: b\r\n\t\rSymbol ID: x\nheartbeat\n".toList
    ++ "\x7b\"message\":\"Symbol ID:\"\x7d\nSymbol ID: 7 Name: c Desc: d".toList

/-- That log in the working directory of a machine that takes a millisecond or so. -/
def mixedDisk : FileSystem :=
  { FileSystem.empty.addFile (FileSystem.placeOf Job.standard.input) (Utf8.encode mixedLog) with
    elapsed := 1_050_000 }

def mixedTally : Tally := ⟨6, 1, 1, 4, 1, 2, 2, 1, 1⟩

theorem findingsFrom_mixedLog :
    Survey.findingsFrom 0 mixedLog.lines
      = [(1, .symbol .raw ⟨['7'], ['a'], ['b']⟩), (2, .blank), (3, .unmatched .raw),
        (4, .unmarked .raw), (5, .unmatched .envelope),
        (6, .symbol .raw ⟨['7'], ['c'], ['d']⟩)] := by
  decide +kernel

theorem result_mixedDisk :
    (Job.standard.run FileSystem.store mixedDisk).1.result = .ok mixedTally := by
  have hopen : mixedDisk.openRead Job.standard.input
      = .ok (.ofBytes (Utf8.encode mixedLog)) := rfl
  rw [(Job.run_of_text hopen).1, findingsFrom_mixedLog, Text.symbols,
    ← Survey.symbols_findingsFrom 0 mixedLog.lines none, findingsFrom_mixedLog]
  cbv

theorem chronicle_mixedLog :
    Job.standard.chronicle mixedLog
      = [.noSymbol 2, .unmatched 3 .raw, .noSymbol 4, .unmatched 5 .envelope, .replaced ['7'],
        .complete 2 1, .written "symbols.json" .json 1, .written "symbols.csv" .csv 1] := by
  rw [Job.chronicle, ← Survey.events_findingsFrom mixedLog.lines none, Text.symbols,
    ← Survey.symbols_findingsFrom 0 mixedLog.lines none, findingsFrom_mixedLog]
  cbv

/-- Everything that is said of it, with the lowest threshold and with none from outside. -/
theorem messages_of_success_mixedLog :
    let told := ["DEBUG symex::pipeline::stream: duplicate symbol id, keeping later entry id=7",
      "INFO symex::pipeline::stream: symbol extraction complete matched=2 unique=1",
      "DEBUG symex::output_format: output written path=symbols.json kind=\"JSON\" count=1",
      "DEBUG symex::output_format: output written path=symbols.csv kind=\"CSV\" count=1",
      "Final statistics:",
      "  Lines read: 6",
      "  Blank lines: 1",
      "  Envelope lines: 1",
      "  Raw lines: 4",
      "  Lines without marker: 1",
      "  Unmatched marker lines: 2",
      "  Symbols matched: 2",
      "  Duplicates discarded: 1",
      "  Unique symbols: 1",
      "  Processing time: 1.05ms"]
    (execute FileSystem.store ["--debug"] (some "trace") mixedDisk).1.Says
        (["TRACE symex::pipeline::stream: no symbol on line line=2",
          "DEBUG symex::pipeline::stream: marker without full match, skipping line=3 kind=Raw",
          "TRACE symex::pipeline::stream: no symbol on line line=4",
          "DEBUG symex::pipeline::stream: marker without full match, skipping line=5 kind=Envelope"]
          ++ told) ∧
      (execute FileSystem.store ["--debug"] none mixedDisk).1.Says
        (["DEBUG symex::pipeline::stream: marker without full match, skipping line=3 kind=Raw",
          "DEBUG symex::pipeline::stream: marker without full match, skipping line=5 kind=Envelope"]
          ++ told) := by
  have hparse : parse ["--debug"] = .ok ⟨Job.standard, true, false⟩ := by rfl
  have hpaths : ∀ path ∈ [Job.standard.jsonOutput, Job.standard.csvOutput],
      ∀ c ∈ path.toList, ¬ IsUnicodeControl c := by
    simp [Job.standard, IsUnicodeControl, isControl]
  have hcode : (execute FileSystem.store ["--debug"] none mixedDisk).1.code = 0 := by
    rw [execute, executeWith_of_parse hparse, conclude_eq, result_mixedDisk]
    rfl
  obtain ⟨t, tally, hinput, hrun, htrace, hplain, -, -, -, hlines, hmatched, hunique⟩ :=
    messages_of_success mixedDisk hparse rfl hpaths hcode
  have hcontents : mixedDisk.contents? Job.standard.input = some (Utf8.encode mixedLog) := by rfl
  obtain rfl : mixedLog = t :=
    Utf8.encode_injective (Option.some.inj (hcontents.symm.trans hinput))
  rw [result_mixedDisk] at hrun
  cases hrun
  simp only [chronicle_mixedLog, ← hlines, ← hmatched, ← hunique] at htrace hplain
  exact ⟨htrace, hplain⟩

end CommandLine

end SymbolLog
