/-
The counters of an extraction.

Each line is counted once as a line, once by what it yields and, unless it is
blank, once by how it is packed. The last two counters are about the symbols as a
whole and stay zero until the collection is closed.

How long all this took is printed with the counters but is none of them: it does
not follow from the lines. Whoever prints it asks the machine.
-/
import SymbolLog.Finding

set_option autoImplicit false

namespace SymbolLog

/-- How many lines there were of each sort, and how many symbols came of them. -/
structure Tally where
  lines : Nat
  blank : Nat
  envelopes : Nat
  raw : Nat
  unmarked : Nat
  unmatched : Nat
  matched : Nat
  discarded : Nat
  unique : Nat
  deriving DecidableEq

namespace Tally

def zero : Tally := ⟨0, 0, 0, 0, 0, 0, 0, 0, 0⟩

def countPacking (tally : Tally) : Option Packing → Tally
  | none => tally
  | some .envelope => { tally with envelopes := tally.envelopes + 1 }
  | some .raw => { tally with raw := tally.raw + 1 }

def countYield (tally : Tally) : Finding → Tally
  | .blank => { tally with blank := tally.blank + 1 }
  | .unmarked _ => { tally with unmarked := tally.unmarked + 1 }
  | .unmatched _ => { tally with unmatched := tally.unmatched + 1 }
  | .symbol _ _ => { tally with matched := tally.matched + 1 }

/-- Counts a line. -/
def record (tally : Tally) (finding : Finding) : Tally :=
  ({ tally with lines := tally.lines + 1 }.countPacking finding.packing?).countYield finding

theorem lines_record (tally : Tally) (finding : Finding) :
    (tally.record finding).lines = tally.lines + 1 := by
  cases finding with
  | blank => rfl
  | unmarked p => cases p <;> rfl
  | unmatched p => cases p <;> rfl
  | symbol p _ => cases p <;> rfl

end Tally

end SymbolLog
