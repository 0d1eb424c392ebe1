/-
Which lines of a log are handled.

Whoever takes lines from a reader stops at the first fault. So of all readings only two
things count, the lines before the first fault and that fault; the numbers of the lines and
whatever comes later do not. Both are said of a list of readings first, and then of the
chunks that the readings come from (`handled_ofYields`), where no numbers are left to be
carried along.

A reader that has been read from hands out what is left of its readings
(`readings_skip`), also in the middle of a chunk, so nothing has to be said about such
readers apart.
-/
import SymbolLog.Proofs.Log.Chunks
import Mathlib.Data.List.TakeWhile

set_option autoImplicit false

namespace SymbolLog

namespace Reading

def line? : Reading → Option Text
  | .line _ t => some t
  | .fault _ => none

def fault? : Reading → Option Fault
  | .line _ _ => none
  | .fault f => some f

/-- The lines before the first fault. -/
def handled (readings : List Reading) : List Text :=
  (readings.takeWhile fun reading => reading.fault?.isNone).filterMap line?

def firstFault? (readings : List Reading) : Option Fault := readings.findSome? fault?

theorem handled_line (number : Nat) (t : Text) (rest : List Reading) :
    handled (.line number t :: rest) = t :: handled rest := by
  simp [handled, fault?, line?]

theorem handled_fault (f : Fault) (rest : List Reading) : handled (.fault f :: rest) = [] := by
  simp [handled, fault?]

theorem firstFault?_line (number : Nat) (t : Text) (rest : List Reading) :
    firstFault? (.line number t :: rest) = firstFault? rest := by
  simp [firstFault?, List.findSome?_cons, fault?]

theorem firstFault?_fault (f : Fault) (rest : List Reading) :
    firstFault? (.fault f :: rest) = some f := by
  simp [firstFault?, List.findSome?_cons, fault?]

/-- Lines are all handled, and then what follows them. -/
theorem handled_ofLines_append (count : Nat) (lines : List Text) (rest : List Reading) :
    handled (ofLines count lines ++ rest) = lines ++ handled rest := by
  induction lines generalizing count with
  | nil => simp [ofLines]
  | cons t lines ih => rw [ofLines_cons, List.cons_append, handled_line, ih, List.cons_append]

theorem firstFault?_ofLines_append (count : Nat) (lines : List Text) (rest : List Reading) :
    firstFault? (ofLines count lines ++ rest) = firstFault? rest := by
  induction lines generalizing count with
  | nil => simp [ofLines]
  | cons t lines ih => rw [ofLines_cons, List.cons_append, firstFault?_line, ih]

theorem handled_ofLines (count : Nat) (lines : List Text) :
    handled (ofLines count lines) = lines := by
  have h := handled_ofLines_append count lines []
  rw [List.append_nil] at h
  rw [h]
  exact List.append_nil lines

theorem firstFault?_ofLines (count : Nat) (lines : List Text) :
    firstFault? (ofLines count lines) = none := by
  have h := firstFault?_ofLines_append count lines []
  rw [List.append_nil] at h
  exact h

/-! ## Chunks -/

def yieldedLines : Except Fault (List Text) → List Text
  | .ok lines => lines
  | .error _ => []

def yieldedFault? : Except Fault (List Text) → Option Fault
  | .ok _ => none
  | .error f => some f

/-- The lines that are handled are those of the chunks before the first that has none,
whatever numbers they have. -/
theorem handled_ofYields (count : Nat) (yields : List (Except Fault (List Text))) :
    handled (ofYields count yields)
      = (yields.takeWhile fun y => (yieldedFault? y).isNone).flatMap yieldedLines := by
  induction yields generalizing count with
  | nil => rfl
  | cons first rest ih =>
    cases first with
    | error f => simp [ofYields, handled_fault, yieldedFault?]
    | ok lines =>
      rw [ofYields, handled_ofLines_append, ih]
      simp [yieldedFault?, yieldedLines]

/-- The first fault of a log is that of the first chunk that has one. -/
theorem firstFault?_ofYields (count : Nat) (yields : List (Except Fault (List Text))) :
    firstFault? (ofYields count yields) = yields.findSome? yieldedFault? := by
  induction yields generalizing count with
  | nil => rfl
  | cons first rest ih =>
    cases first with
    | error f => simp [ofYields, firstFault?_fault, List.findSome?_cons, yieldedFault?]
    | ok lines =>
      rw [ofYields, firstFault?_ofLines_append, ih]
      simp [List.findSome?_cons, yieldedFault?]

/-- Behind chunks without a fault, the others are handled as they would be alone. -/
theorem handled_ofYields_append {first : List (Except Fault (List Text))}
    (hfirst : ∀ y ∈ first, yieldedFault? y = none) (rest : List (Except Fault (List Text)))
    (count : Nat) :
    handled (ofYields count (first ++ rest))
        = handled (ofYields count first) ++ handled (ofYields count rest) ∧
      firstFault? (ofYields count (first ++ rest)) = firstFault? (ofYields count rest) := by
  have hpass : ∀ y ∈ first, (yieldedFault? y).isNone = true := fun y hy =>
    Option.isNone_iff_eq_none.2 (hfirst y hy)
  have hall : first.takeWhile (fun y => (yieldedFault? y).isNone) = first :=
    List.takeWhile_eq_self_iff.2 hpass
  constructor
  · rw [handled_ofYields, handled_ofYields, handled_ofYields, List.takeWhile_append_of_pos hpass,
      hall, List.flatMap_append]
  · rw [firstFault?_ofYields, firstFault?_ofYields, List.findSome?_append,
      List.findSome?_eq_none_iff.2 hfirst, Option.none_or]

end Reading

/-! ## Readers that have been read from -/

namespace Reader

/-- What is left of a reader hands out what is left of its readings. -/
theorem readings_skip (n : Nat) (r : Reader) : (r.skip n).readings = r.readings.drop n := by
  induction n generalizing r with
  | zero => rw [skip, List.drop_zero]
  | succ n ih =>
    cases hnext : r.next? with
    | none =>
      have hnil := readings_of_next?_none hnext
      simp only [skip, hnext, hnil, List.drop_nil]
    | some step =>
      obtain ⟨reading, after⟩ := step
      have hcons := readings_of_next?_some hnext
      simp only [skip, hnext, hcons, List.drop_succ_cons]
      exact ih after

/-- A reader that has some lines left and nothing else. -/
def ofLines (lines : List Text) : Reader := { source := [], queue := lines, count := 0 }

theorem readings_ofLines (lines : List Text) :
    (ofLines lines).readings = Reading.ofLines 0 lines := by
  rw [ofLines, readings_queue, readings_of_next?_none rfl, List.append_nil]

end Reader

end SymbolLog
