/-
The catalogue: one symbol for each id, in the order of the ids.

A log may announce an id many times, and the last announcement counts. It takes
the place of the first one, so that the catalogue remembers in which order the
ids appeared, and the stable sort keeps that order among ids that are equal as
numbers, such as `7` and `07`.
-/
import SymbolLog.Symbol.Order

set_option autoImplicit false

namespace SymbolLog

/-- Puts a symbol in the place of the one with its id, or at the end if there is none. -/
def putSymbol (s : Symbol) : List Symbol → List Symbol
  | [] => [s]
  | t :: rest => if t.id = s.id then s :: rest else t :: putSymbol s rest

/-- Putting a symbol keeps all ids in their places, and a new one comes last. -/
theorem map_id_putSymbol (s : Symbol) (kept : List Symbol) :
    (putSymbol s kept).map Symbol.id =
      if s.id ∈ kept.map Symbol.id then kept.map Symbol.id else kept.map Symbol.id ++ [s.id] := by
  induction kept with
  | nil => simp [putSymbol]
  | cons t rest ih =>
    by_cases h : t.id = s.id
    · simp [putSymbol, h]
    · simp only [putSymbol, h, if_false, List.map_cons, ih, List.mem_cons, Ne.symm h, false_or]
      split <;> rfl

/-- The last symbol of each id, in the order in which the ids first appear. -/
def latestById (symbols : List Symbol) : List Symbol :=
  symbols.foldl (fun kept s => putSymbol s kept) []

/-- The ids that had appeared before, once for each time they appear again; `seen`
holds those known from the start. -/
def repeatedIds (seen : List Text) : List Symbol → List Text
  | [] => []
  | s :: rest =>
    if s.id ∈ seen then s.id :: repeatedIds seen rest else repeatedIds (s.id :: seen) rest

/-- The last symbol of each id, sorted by id. -/
def catalogue (symbols : List Symbol) : List Symbol :=
  (latestById symbols).mergeSort Symbol.notAfter

end SymbolLog
