/-
A source that fails once costs a log the chunk in progress.

When a source fails, what has been read of the chunk is given up, and reading goes on with the
next byte as if a log began there. So a failure in the middle of a chunk costs the bytes from
the start of the chunk to the failure. The chunks before it have been dealt with, down to the
last of their lines, before the failure is met at all, and the bytes after it are a log of their
own, which has been cut somewhere: perhaps within a character, or between a carriage return and
its line feed.

All that the two parts have in common are the numbers of the lines. Cutting the signals of the
source says where the failure stands among the chunks (`cut_failure`), and numbering through
says the rest (`ofYields_append`, `ofYields_add`).
-/
import SymbolLog.Proofs.Log.Containment
import Mathlib.Order.Bounds.Defs

set_option autoImplicit false

namespace SymbolLog

/-! ## The chunk in progress -/

/-- A list up to the last occurrence of an element, and what is left of it. -/
theorem exists_last_split {α : Type} [DecidableEq α] (x : α) (l : List α) :
    ∃ a b, l = a ++ b ∧ (a = [] ∨ a.getLast? = some x) ∧ x ∉ b := by
  induction l using cut_induction x with
  | nil => exact ⟨[], [], rfl, .inl rfl, List.not_mem_nil⟩
  | last b hb hne => exact ⟨[], b, rfl, .inl rfl, hb⟩
  | part first l hfirst ih =>
    obtain ⟨a, b, rfl, ha, hb⟩ := ih
    refine ⟨first ++ x :: a, b, by simp, .inr ?_, hb⟩
    obtain rfl | ha := ha
    · exact List.getLast?_concat
    · rw [List.getLast?_append, List.getLast?_cons, ha]
      rfl

namespace Source

/-- Bytes without a line feed belong to the chunk that comes next. -/
theorem cut_ofBytes_append {a : Bytes} (ha : lineFeed ∉ a) {source : Source} {piece : Piece}
    {rest : List Piece} (h : cut source = piece :: rest) :
    cut (ofBytes a ++ source) = ⟨a ++ piece.bytes, piece.failure⟩ :: rest := by
  induction a with
  | nil => exact h
  | cons b a ih =>
    rw [List.mem_cons, not_or] at ha
    have hcons : ofBytes (b :: a) ++ source = .byte b :: (ofBytes a ++ source) := rfl
    rw [hcons, cut, if_neg (Ne.symm ha.1), ih ha.2]
    rfl

theorem cut_ofBytes_part {a : Bytes} (ha : lineFeed ∉ a) (log : Bytes) (source : Source) :
    cut (ofBytes (a ++ lineFeed :: log) ++ source) = ⟨a, none⟩ :: cut (ofBytes log ++ source) := by
  have hfeed : cut (.byte lineFeed :: (ofBytes log ++ source))
      = ⟨[], none⟩ :: cut (ofBytes log ++ source) := by rw [cut, if_pos rfl]
  have hbytes : ofBytes (a ++ lineFeed :: log) ++ source
      = ofBytes a ++ .byte lineFeed :: (ofBytes log ++ source) := by simp [ofBytes]
  rw [hbytes, cut_ofBytes_append ha hfeed, List.append_nil]

/-- Bytes that end with a chunk are cut apart from what comes after them. -/
theorem cut_ofBytes_append_of_ended {a : Bytes} (ha : a = [] ∨ a.getLast? = some lineFeed)
    (source : Source) : cut (ofBytes a ++ source) = cut (ofBytes a) ++ cut source := by
  induction a using cut_induction lineFeed with
  | nil => rfl
  | last a hmem hne =>
    -- Bytes without a line feed do not end with one.
    exact absurd (List.mem_of_getLast? (ha.resolve_left hne)) hmem
  | part a log hmem ih =>
    have hlog : log = [] ∨ log.getLast? = some lineFeed := by
      by_cases hnil : log = []
      · exact .inl hnil
      · right
        have hlast := ha.resolve_left (by simp)
        obtain ⟨c, log, rfl⟩ := List.exists_cons_of_ne_nil hnil
        rwa [List.getLast?_append_cons, List.getLast?_cons_cons] at hlast
    have hself := cut_ofBytes_part hmem log []
    rw [List.append_nil, List.append_nil] at hself
    rw [cut_ofBytes_part hmem, hself, ih hlog, List.cons_append]

/-- Where the failure stands among the chunks. -/
theorem cut_failure {before lost : Bytes}
    (hbefore : before = [] ∨ before.getLast? = some lineFeed) (hlost : lineFeed ∉ lost)
    (fault : Fault) (rest : Source) :
    cut (ofBytes (before ++ lost) ++ .failure fault :: rest)
      = cut (ofBytes before) ++ ⟨lost, some fault⟩ :: cut rest := by
  have hsplit : ofBytes (before ++ lost) = ofBytes before ++ ofBytes lost := List.map_append
  have hfailure : cut (.failure fault :: rest) = ⟨[], some fault⟩ :: cut rest := rfl
  rw [hsplit, List.append_assoc, cut_ofBytes_append_of_ended hbefore,
    cut_ofBytes_append hlost hfailure, List.append_nil]

end Source

/-! ## Numbering on -/

namespace Reading

/-- A reading with a number that is greater by some lines read before. -/
def after (count : Nat) : Reading → Reading
  | .line n t => .line (count + n) t
  | .fault f => .fault f

theorem ofLines_add (n count : Nat) (lines : List Text) :
    ofLines (n + count) lines = (ofLines count lines).map (after n) := by
  induction lines generalizing count with
  | nil => rfl
  | cons t lines ih =>
    rw [ofLines_cons, ofLines_cons, Nat.add_assoc, ih, List.map_cons]
    rfl

theorem ofYields_add (n count : Nat) (yields : List (Except Fault (List Text))) :
    ofYields (n + count) yields = (ofYields count yields).map (after n) := by
  induction yields generalizing count with
  | nil => rfl
  | cons first rest ih =>
    cases first with
    | error f =>
      rw [ofYields, ofYields, ih, List.map_cons]
      rfl
    | ok lines => rw [ofYields, ofYields, ofLines_add, Nat.add_assoc, ih, List.map_append]

theorem ofYields_append (count : Nat) (first second : List (Except Fault (List Text))) :
    ofYields count (first ++ second)
      = ofYields count first
          ++ ofYields (count + (first.flatMap yieldedLines).length) second := by
  induction first generalizing count with
  | nil => rfl
  | cons y first ih =>
    cases y with
    | error f =>
      rw [List.cons_append, ofYields, ih, ofYields, List.cons_append]
      rfl
    | ok lines =>
      rw [List.cons_append, ofYields, ih, ofYields, List.append_assoc, List.flatMap_cons,
        List.length_append, ← Nat.add_assoc]
      rfl

end Reading

/-! ## Where a chunk begins -/

/-- A chunk begins at the start of the log and behind every line feed. -/
def Bytes.IsChunkStart (log : Bytes) (place : Nat) : Prop :=
  place = 0 ∨ log[place - 1]? = some Source.lineFeed

/-- The chunk in progress began behind the last line feed before the failure. -/
theorem isGreatest_isChunkStart {before lost : Bytes} (rest : Bytes)
    (hbefore : before = [] ∨ before.getLast? = some Source.lineFeed)
    (hlost : Source.lineFeed ∉ lost) :
    IsGreatest {c | c ≤ (before ++ lost).length ∧ Bytes.IsChunkStart (before ++ lost ++ rest) c}
      before.length := by
  constructor
  · refine ⟨by simp, ?_⟩
    obtain rfl | hlast := hbefore
    · exact .inl rfl
    · right
      have hpos : before.length - 1 < before.length := by
        have hne : before ≠ [] := by
          rintro rfl
          cases hlast
        have := List.length_pos_iff.2 hne
        omega
      rw [List.append_assoc, List.getElem?_append_left hpos, ← List.getLast?_eq_getElem?, hlast]
  · rintro place ⟨hle, hzero | hfeed⟩
    · omega
    · -- A later start would need a line feed among the bytes that are lost.
      by_contra hlt
      apply hlost
      rw [List.getElem?_append_left (by omega), List.getElem?_append_right (by omega)] at hfeed
      exact List.mem_of_getElem? hfeed

/-! ## Reading across a failure -/

/-- The readings of a source are what its chunks yield, be they ended by a failure or not. -/
theorem Reader.readings_ofSource (source : Source) :
    (Reader.ofSource source).readings
      = Reading.ofYields 0 (source.cut.map Source.Piece.yield) := by
  rw [Reader.readings_eq]
  rfl

/-- Some readings, a failure, and readings whose lines are numbered on. -/
def Reading.interrupted (before : List Reading) (fault : Fault) (rest : List Reading) :
    List Reading :=
  before ++ .fault fault :: rest.map (after (before.countP isLine))

/-- What was read of the chunk in progress is lost, and reading goes on as in a log that begins
behind the failure. -/
theorem readings_failure {before lost : Bytes}
    (hbefore : before = [] ∨ before.getLast? = some Source.lineFeed)
    (hlost : Source.lineFeed ∉ lost) (fault : Fault) (rest : Bytes) :
    (Reader.ofSource
        (Source.ofBytes (before ++ lost) ++ .failure fault :: Source.ofBytes rest)).readings
      = Reading.interrupted before.readings fault rest.readings := by
  have hcount : before.readings.countP Reading.isLine
      = (((Source.ofBytes before).cut.map Source.Piece.yield).flatMap
          Reading.yieldedLines).length := by
    rw [List.countP_eq_length_filter, Bytes.readings, Reader.readings_ofSource,
      Reading.filter_isLine_ofYields, Reading.ofLines, List.length_map, List.length_zipIdx]
  have hlostYield : Source.Piece.yield ⟨lost, some fault⟩ = .error fault := rfl
  rw [Reader.readings_ofSource, Source.cut_failure hbefore hlost, List.map_append, List.map_cons,
    Reading.ofYields_append, hlostYield, Reading.ofYields, ← hcount, Nat.add_comm,
    Reading.ofYields_add, ← Reader.readings_ofSource, ← Reader.readings_ofSource]
  rfl

/-- **A failure of the source costs the chunk in progress and nothing else.** If the source of a
log fails before its byte at `k`, the reader hands out what it would hand out for the log up to
the start `c` of the chunk that is being read there, then the failure, and then what it would
hand out for the bytes from `k` on as a log of their own, with the lines numbered on. If the log
is shorter than that, there is no failure. -/
theorem readings_interrupted (log : Bytes) (k : Nat) (fault : Fault) :
    let readings := (Reader.ofSource (.failingAt k fault log)).readings
    (k ≤ log.length →
      ∃ c, IsGreatest {c | c ≤ k ∧ log.IsChunkStart c} c ∧
        readings = Reading.interrupted (Bytes.readings (log.take c)) fault
          (Bytes.readings (log.drop k))) ∧
      (log.length < k → readings = log.readings) := by
  intro readings
  constructor
  · intro hk
    obtain ⟨before, lost, hsplit, hbefore, hlost⟩ :=
      exists_last_split Source.lineFeed (log.take k)
    -- The bytes up to the failure are whole chunks and the part of one that is lost.
    have hlength : (before ++ lost).length = k := by
      rw [← hsplit, List.length_take, Nat.min_eq_left hk]
    have hlog : before ++ lost ++ log.drop k = log := by rw [← hsplit, List.take_append_drop]
    refine ⟨before.length, ?_, ?_⟩
    · have hgreatest := isGreatest_isChunkStart (log.drop k) hbefore hlost
      rwa [hlength, hlog] at hgreatest
    · have htake : log.take before.length = before := by
        rw [← hlog, List.append_assoc, List.take_left]
      have hfailing : Source.failingAt k fault log
          = Source.ofBytes (before ++ lost) ++ .failure fault :: Source.ofBytes (log.drop k) := by
        rw [Source.failingAt, if_pos hk, hsplit]
      rw [htake, ← readings_failure hbefore hlost, ← hfailing]
  · intro hk
    have hnone : Source.failingAt k fault log = Source.ofBytes log := if_neg (by omega)
    show (Reader.ofSource (.failingAt k fault log)).readings = log.readings
    rw [hnone, Bytes.readings]

/-- Two lines in one chunk, and then a character of two bytes. -/
def accentLog : Bytes := [0x61, 0x0D, 0x62, 0x0A, 0x63, 0xC3, 0xA9, 0x0A, 0x64]

/-- A failure within a character, and one within the log that is left. -/
theorem readings_interrupted_accentLog :
    let readings (k : Nat) :=
      (Reader.ofSource (.failingAt k (.device "source failed") accentLog)).readings
    (6 ≤ accentLog.length ∧
      ∃ c, IsGreatest {c | c ≤ 6 ∧ accentLog.IsChunkStart c} c ∧
        readings 6 = Reading.interrupted (Bytes.readings (accentLog.take c))
          (.device "source failed") (Bytes.readings (accentLog.drop 6))) ∧
      accentLog.length < 10 ∧ readings 10 = accentLog.readings := by
  have hwithin : 6 ≤ accentLog.length := by decide
  have hbeyond : accentLog.length < 10 := by decide
  exact ⟨⟨hwithin, (readings_interrupted accentLog 6 _).1 hwithin⟩,
    hbeyond, (readings_interrupted accentLog 10 _).2 hbeyond⟩

-- The failure is met within the character, whose second byte begins the rest.
example : (Reader.ofSource (.failingAt 6 (.device "source failed") accentLog)).readings
    = [.line 1 ['a'], .line 2 ['b'], .fault (.device "source failed"),
        .fault (.malformedText (.invalid 1 0)), .line 3 ['d']] := by
  cbv

end SymbolLog
