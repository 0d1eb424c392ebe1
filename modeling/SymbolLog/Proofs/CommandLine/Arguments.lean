/-
The requests that arguments can make.

Arguments may give the paths and the switches in any order and in several spellings. Which paths
come out of it is easier to say than how: they are not empty, and all paths that are not empty are
given by some arguments (`isAccepted_iff`). Nothing is ever settled but by `settle` and `turnOn`, so
a property that these two keep holds at the end (`Kept.readArguments`).

Paths and switches have nothing to do with each other. A reading that comes to its end with no
switch on has looked at none on its way, for a switch that is on stays on. So it would have come
to the same end with the switches already set, and arguments without switches are accepted with
any switches in front of them (`parse_switches_append`).
-/
import SymbolLog.CommandLine.Arguments
import SymbolLog.Proofs.Steps
import SymbolLog.Proofs.Text.Marks

set_option autoImplicit false

namespace SymbolLog.CommandLine

/-! ## What reading arguments keeps -/

/-- A property of the options that have been settled that settling another one keeps. -/
structure Kept (P : Given → Prop) : Prop where
  settle : ∀ {given after : Given} {option : Setting} {value : Option String}, P given →
    given.settle option value = .ok after → P after
  turnOn : ∀ {given after : Given} {option : Switch}, P given →
    given.turnOn option = .ok after → P after

namespace Kept

variable {P : Given → Prop} {p q : Reached}

/-- An option that is left without a value is refused, so settling what is pending changes
nothing. -/
theorem settled (h : Kept P) (hp : P p.given) {given : Given} (hread : p.settled = .ok given) :
    P given := by
  unfold Reached.settled at hread
  split at hread
  · cases hread
    exact hp
  · exact h.settle hp hread

/-- Before an option waits for its value, what was pending is settled. -/
theorem opened (h : Kept P) (hp : P p.given) {option : Setting}
    (hread : p.opened option = .ok q) : P q.given := by
  obtain ⟨given, hsettled, hq⟩ := bind_eq_ok_iff.1 hread
  cases hq
  exact h.settled hp hsettled

/-- A value that comes with its option is settled with it. -/
theorem attached (h : Kept P) (hp : P p.given) {option : Setting} {value : String}
    (hread : p.attached option value = .ok q) : P q.given := by
  obtain ⟨given, hsettled, hread⟩ := bind_eq_ok_iff.1 hread
  obtain ⟨after, hsettle, hq⟩ := bind_eq_ok_iff.1 hread
  cases hq
  exact h.settle (h.settled hp hsettled) hsettle

theorem turnedOn (h : Kept P) (hp : P p.given) {option : Switch}
    (hread : p.turnedOn option = .ok q) : P q.given := by
  obtain ⟨given, hsettled, hread⟩ := bind_eq_ok_iff.1 hread
  obtain ⟨after, hturn, hq⟩ := bind_eq_ok_iff.1 hread
  cases hq
  exact h.turnOn (h.settled hp hsettled) hturn

/-- A value that is found later is not settled yet. -/
theorem readValue (hp : P p.given) {argument : String}
    (hread : p.readValue argument = .ok q) : P q.given := by
  unfold Reached.readValue at hread
  split at hread
  · cases hread
    exact hp
  · cases hread

theorem readLong (h : Kept P) (hp : P p.given) {name : String} {value : Option String}
    (hread : p.readLong name value = .ok q) : P q.given := by
  unfold Reached.readLong at hread
  split at hread
  · cases hread
  · cases hread
  · exact h.turnedOn hp hread
  · exact h.attached hp hread
  · exact h.opened hp hread

theorem readLetters (h : Kept P) (hp : P p.given) {t : Text}
    (hread : p.readLetters t = .ok q) : P q.given := by
  induction t generalizing p with
  | nil =>
    cases hread
    exact hp
  | cons c rest ih =>
    unfold Reached.readLetters at hread
    split at hread
    · cases hread
    · obtain ⟨mid, hmid, hread⟩ := bind_eq_ok_iff.1 hread
      exact ih (h.turnedOn hp hmid) hread
    · split at hread
      · exact h.opened hp hread
      · exact h.attached hp hread

theorem readArgument (h : Kept P) (hp : P p.given) {argument : String}
    (hread : p.readArgument argument = .ok q) : P q.given := by
  unfold Reached.readArgument at hread
  split at hread
  · split at hread
    · exact h.readLong hp hread
    · exact h.readLong hp hread
  · exact h.readLetters hp hread
  · exact readValue hp hread

/-- **Whatever each step keeps, all of them keep.** Nothing about the arguments themselves is
used. -/
theorem readArguments (h : Kept P) (hp : P p.given) {arguments : List String} {given : Given}
    (hread : p.readArguments arguments = .ok given) : P given := by
  induction arguments generalizing p with
  | nil => exact h.settled hp hread
  | cons argument rest ih =>
    unfold Reached.readArguments at hread
    split at hread
    · split at hread
      · exact h.settled hp hread
      · cases hread
    · obtain ⟨q, hq, hread⟩ := bind_eq_ok_iff.1 hread
      exact ih (h.readArgument hp hq) hread

end Kept

/-- What is settled is a value that is not empty. -/
theorem exists_put_of_settle {given after : Given} {option : Setting} {value : Option String}
    (h : given.settle option value = .ok after) :
    ∃ value, value ≠ "" ∧ after = given.put value option := by
  unfold Given.settle at h
  split at h
  · cases h
  next value =>
    split at h
    · cases h
    · split at h
      · cases h
      next hvalue =>
        cases h
        exact ⟨value, hvalue, rfl⟩

/-- Only two switches can be turned on without an end to the reading. -/
theorem eq_of_turnOn {given after : Given} {option : Switch}
    (h : given.turnOn option = .ok after) :
    after = { given with debug := true } ∨ after = { given with quiet := true } := by
  -- Help and version end the reading, so only two switches are left.
  cases option with
  | help => cases h
  | version => cases h
  | debug =>
    simp only [Given.turnOn] at h
    split at h
    · cases h
    · exact .inl (Except.ok.inj h).symm
  | quiet =>
    simp only [Given.turnOn] at h
    split at h
    · cases h
    · exact .inr (Except.ok.inj h).symm

/-! ## Paths are not empty -/

/-- No option has been settled with an empty value. -/
def Given.NoneEmpty (given : Given) : Prop := ∀ option, given.value? option ≠ some ""

/-- An empty value is refused where it is settled, and nowhere else does a value come in. -/
theorem kept_noneEmpty : Kept Given.NoneEmpty where
  settle := by
    intro given after option value hgiven hsettle
    obtain ⟨value, hvalue, rfl⟩ := exists_put_of_settle hsettle
    intro other
    have hother := hgiven other
    cases option <;> cases other <;> simpa [Given.put, Given.value?] using ‹_›
  turnOn := by
    intro given after option hgiven hturn
    rcases eq_of_turnOn hturn with rfl | rfl
    · exact hgiven
    · exact hgiven

/-- Paths that a command line can give. -/
def Usable (job : Job) : Prop := job.input ≠ "" ∧ job.jsonOutput ≠ "" ∧ job.csvOutput ≠ ""

theorem getD_ne_empty {value : Option String} {path : String} (hvalue : value ≠ some "")
    (hpath : path ≠ "") : value.getD path ≠ "" := by
  cases value with
  | none => simpa using hpath
  | some value => simpa using hvalue

/-- A request that is accepted has no empty path. -/
theorem usable_of_parse {arguments : List String} {request : Request}
    (h : parse arguments = .ok request) : Usable request.job := by
  obtain ⟨given, hread, hrequest⟩ := bind_eq_ok_iff.1 h
  cases hrequest
  have hnothing : Given.nothing.NoneEmpty := by
    intro option
    cases option <;> simp [Given.nothing, Given.value?]
  have hgiven := kept_noneEmpty.readArguments hnothing hread
  refine ⟨?_, ?_, ?_⟩
  · exact getD_ne_empty (hgiven .input) (by decide)
  · exact getD_ne_empty (hgiven .jsonOutput) (by decide)
  · exact getD_ne_empty (hgiven .csvOutput) (by decide)

/-! ## Switches

A run over the arguments that turns on no switch looks at none. -/

def Given.Switched (given : Given) : Prop := given.debug = true ∨ given.quiet = true

/-- The options that have been given, with the switches set. -/
def Given.setSwitches (debug quiet : Bool) (given : Given) : Given := { given with debug, quiet }

def Reached.setSwitches (debug quiet : Bool) (p : Reached) : Reached :=
  ⟨p.given.setSwitches debug quiet, p.pending⟩

theorem switched_of_turnOn {given after : Given} {option : Switch}
    (h : given.turnOn option = .ok after) : after.Switched := by
  rcases eq_of_turnOn h with rfl | rfl
  · exact .inl rfl
  · exact .inr rfl

/-- No step turns a switch off. -/
theorem kept_switched : Kept Given.Switched where
  settle := by
    intro given after option value hgiven hsettle
    obtain ⟨value, -, rfl⟩ := exists_put_of_settle hsettle
    cases option <;> exact hgiven
  turnOn := fun _ hturn => switched_of_turnOn hturn

namespace Reached

variable {p q : Reached} (debug quiet : Bool)

/-- Settling an option does not look at the switches. -/
theorem settle_setSwitches {given after : Given} {option : Setting} {value : Option String}
    (h : given.settle option value = .ok after) :
    (given.setSwitches debug quiet).settle option value = .ok (after.setSwitches debug quiet) := by
  have hvalue : (given.setSwitches debug quiet).value? option = given.value? option := by
    cases option <;> rfl
  unfold Given.settle at h ⊢
  split at h
  · cases h
  · rw [hvalue]
    split at h
    · cases h
    next hnew =>
      split at h
      · cases h
      next hne =>
        cases h
        rw [if_neg hnew, if_neg hne]
        cases option <;> rfl

theorem settled_setSwitches {given : Given} (h : p.settled = .ok given) :
    (p.setSwitches debug quiet).settled = .ok (given.setSwitches debug quiet) := by
  obtain ⟨before, pending⟩ := p
  cases pending with
  | none =>
    cases h
    rfl
  | some pending => exact settle_setSwitches debug quiet h

theorem opened_setSwitches {option : Setting} (h : p.opened option = .ok q) :
    (p.setSwitches debug quiet).opened option = .ok (q.setSwitches debug quiet) := by
  obtain ⟨given, hsettled, hq⟩ := bind_eq_ok_iff.1 h
  cases hq
  exact bind_eq_ok_iff.2 ⟨_, settled_setSwitches debug quiet hsettled, rfl⟩

theorem attached_setSwitches {option : Setting} {value : String}
    (h : p.attached option value = .ok q) :
    (p.setSwitches debug quiet).attached option value = .ok (q.setSwitches debug quiet) := by
  obtain ⟨given, hsettled, hread⟩ := bind_eq_ok_iff.1 h
  obtain ⟨after, hsettle, hq⟩ := bind_eq_ok_iff.1 hread
  cases hq
  exact bind_eq_ok_iff.2 ⟨_, settled_setSwitches debug quiet hsettled,
    bind_eq_ok_iff.2 ⟨_, settle_setSwitches debug quiet hsettle, rfl⟩⟩

theorem switched_of_turnedOn {option : Switch} (h : p.turnedOn option = .ok q) :
    q.given.Switched := by
  obtain ⟨given, hsettled, hread⟩ := bind_eq_ok_iff.1 h
  obtain ⟨after, hturn, hq⟩ := bind_eq_ok_iff.1 hread
  cases hq
  exact switched_of_turnOn hturn

theorem readValue_setSwitches {argument : String} (h : p.readValue argument = .ok q) :
    (p.setSwitches debug quiet).readValue argument = .ok (q.setSwitches debug quiet) := by
  obtain ⟨given, pending⟩ := p
  unfold readValue at h ⊢
  split at h
  next option hpending =>
    obtain rfl : pending = some (option, none) := hpending
    cases h
    rfl
  · cases h

theorem readLong_setSwitches {name : String} {value : Option String}
    (h : p.readLong name value = .ok q) (hq : ¬ q.given.Switched) :
    (p.setSwitches debug quiet).readLong name value = .ok (q.setSwitches debug quiet) := by
  unfold readLong at h ⊢
  split at h
  · cases h
  · cases h
  · exact absurd (switched_of_turnedOn h) hq
  · exact attached_setSwitches debug quiet h
  · exact opened_setSwitches debug quiet h

theorem readLetters_setSwitches {t : Text} (h : p.readLetters t = .ok q)
    (hq : ¬ q.given.Switched) :
    (p.setSwitches debug quiet).readLetters t = .ok (q.setSwitches debug quiet) := by
  cases t with
  | nil =>
    cases h
    rfl
  | cons c rest =>
    unfold readLetters at h ⊢
    split at h
    · cases h
    · -- The rest of the letters cannot turn the switch off again.
      obtain ⟨mid, hmid, hrest⟩ := bind_eq_ok_iff.1 h
      exact absurd (kept_switched.readLetters (switched_of_turnedOn hmid) hrest) hq
    · split at h
      · exact opened_setSwitches debug quiet h
      · exact attached_setSwitches debug quiet h

theorem readArgument_setSwitches {argument : String} (h : p.readArgument argument = .ok q)
    (hq : ¬ q.given.Switched) :
    (p.setSwitches debug quiet).readArgument argument = .ok (q.setSwitches debug quiet) := by
  unfold readArgument at h ⊢
  split at h
  · split at h
    · exact readLong_setSwitches debug quiet h hq
    · exact readLong_setSwitches debug quiet h hq
  · exact readLetters_setSwitches debug quiet h hq
  · exact readValue_setSwitches debug quiet h

/-- **Reading arguments does not look at the switches.** A switch that is turned on stays on, so if
none is on at the end, none was turned on at any step. -/
theorem readArguments_setSwitches {arguments : List String} {given : Given}
    (h : p.readArguments arguments = .ok given) (hgiven : ¬ given.Switched) :
    (p.setSwitches debug quiet).readArguments arguments
      = .ok (given.setSwitches debug quiet) := by
  induction arguments generalizing p with
  | nil => exact settled_setSwitches debug quiet h
  | cons argument rest ih =>
    -- What follows two dashes would be refused, so they are the last argument.
    by_cases hdashes : argument = "--"
    · cases rest with
      | nil =>
        simp only [readArguments, hdashes, if_true] at h ⊢
        exact settled_setSwitches debug quiet h
      | cons other rest => simp [readArguments, hdashes] at h
    · simp only [readArguments, hdashes, if_false] at h ⊢
      obtain ⟨q, hread, hrest⟩ := bind_eq_ok_iff.1 h
      have hq : ¬ q.given.Switched := fun hq => hgiven (kept_switched.readArguments hq hrest)
      exact bind_eq_ok_iff.2 ⟨_, readArgument_setSwitches debug quiet hread hq, ih hrest⟩

end Reached

/-- The arguments that turn on the switches that are wanted. -/
def switches (debug quiet : Bool) : List String :=
  (if debug then ["--debug"] else []) ++ if quiet then ["--quiet"] else []

/-- Reading the switches first sets them and nothing else. -/
theorem readArguments_switches (debug quiet : Bool) (rest : List String) :
    Reached.readArguments ⟨.nothing, none⟩ (switches debug quiet ++ rest)
      = Reached.readArguments ⟨Given.nothing.setSwitches debug quiet, none⟩ rest := by
  cases debug <;> cases quiet <;> rfl

/-- Switches can be put in front of arguments that have none, and change nothing else. -/
theorem parse_switches_append {arguments : List String} {job : Job}
    (h : parse arguments = .ok ⟨job, false, false⟩) (debug quiet : Bool) :
    parse (switches debug quiet ++ arguments) = .ok ⟨job, debug, quiet⟩ := by
  obtain ⟨given, hread, hrequest⟩ := bind_eq_ok_iff.1 h
  injection hrequest with hrequest
  injection hrequest with hjob hdebug hquiet
  -- The request says that both switches are off, and it says what was given.
  have hgiven : ¬ given.Switched := by
    rintro (hon | hon)
    · simp [hon] at hdebug
    · simp [hon] at hquiet
  have hreads := Reached.readArguments_setSwitches debug quiet hread hgiven
  unfold parse
  rw [readArguments_switches]
  refine bind_eq_ok_iff.2 ⟨_, hreads, ?_⟩
  rw [← hjob]
  rfl

/-! ## Arguments for a job -/

def Setting.name : Setting → String
  | .input => "input"
  | .jsonOutput => "json-output"
  | .csvOutput => "csv-output"

/-- The argument that gives an option with its value attached. -/
def Setting.argument (option : Setting) (value : String) : String :=
  "--" ++ option.name ++ "=" ++ value

/-- The arguments that give the paths. -/
def pathArguments (job : Job) : List String :=
  [Setting.input.argument job.input, Setting.jsonOutput.argument job.jsonOutput,
    Setting.csvOutput.argument job.csvOutput]

theorem toList_argument (option : Setting) (value : String) :
    (option.argument value).toList = '-' :: '-' :: (option.name.toList ++ '=' :: value.toList) := by
  simp [Setting.argument]

/-- An option with its value in one argument is read with the value attached. -/
theorem readArgument_argument (p : Reached) (option : Setting) (value : String) :
    p.readArgument (option.argument value) = p.attached option value := by
  have hbreak : Text.breakOn? ['='] (option.name.toList ++ '=' :: value.toList)
      = some (option.name.toList, value.toList) := by
    have hname : ∀ c ∈ option.name.toList, c ∉ ['='] := by
      cases option <;> simp [Setting.name]
    have hstart : Text.breakOn? ['='] ('=' :: value.toList) = some ([], value.toList) :=
      Text.breakOn?_of_prefix
    rw [Text.breakOn?_append_of_not_mem (List.cons_ne_nil _ _) hname, hstart]
    simp
  have hlong : Name.ofLong? option.name = some (.setting option) := by
    cases option <;> rfl
  simp [Reached.readArgument, toList_argument, hbreak, Reached.readLong, hlong]

/-- If the option has not been given and the value is not empty, the value is put. -/
theorem readArguments_argument {given : Given} {option : Setting} {value : String}
    (hunset : given.value? option = none) (hvalue : value ≠ "") (rest : List String) :
    Reached.readArguments ⟨given, none⟩ (option.argument value :: rest)
      = Reached.readArguments ⟨given.put value option, none⟩ rest := by
  have hdashes : option.argument value ≠ "--" := by
    intro hdashes
    have hlist := congrArg String.toList hdashes
    rw [toList_argument] at hlist
    simp at hlist
  have hattached : Reached.attached ⟨given, none⟩ option value
      = .ok ⟨given.put value option, none⟩ := by
    simp [Reached.attached, Reached.settled, Given.settle, hunset, hvalue, bind, Except.bind, pure,
      Except.pure]
  simp [Reached.readArguments, hdashes, readArgument_argument, hattached, bind, Except.bind]

/-- The paths of a job are parsed as that job, with the switches off. -/
theorem parse_pathArguments {job : Job} (h : Usable job) :
    parse (pathArguments job) = .ok ⟨job, false, false⟩ := by
  obtain ⟨hinput, hjson, hcsv⟩ := h
  unfold parse pathArguments
  rw [readArguments_argument (by rfl) hinput, readArguments_argument (by rfl) hjson,
    readArguments_argument (by rfl) hcsv]
  rfl

/-- Some arguments give these paths, with some switches or none. -/
def IsAccepted (job : Job) : Prop :=
  ∃ arguments debug quiet, parse arguments = .ok ⟨job, debug, quiet⟩

/-- The paths of a job can be given by arguments if and only if none of them is empty. -/
theorem isAccepted_iff {job : Job} : IsAccepted job ↔ Usable job := by
  constructor
  · rintro ⟨arguments, debug, quiet, h⟩
    exact usable_of_parse h
  · intro h
    exact ⟨_, false, false, parse_pathArguments h⟩

end SymbolLog.CommandLine
