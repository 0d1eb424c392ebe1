/-
A length of time in words.

A time is written in the largest unit of which it has at least one, with as many
decimal places as it takes to be exact: there is no rounding, and no zero at the
end of a fraction.
-/
import SymbolLog.Text.Basic

set_option autoImplicit false

namespace SymbolLog.Duration

/-- The decimals of a part of a unit, by long division: at most so many, and none
after the last one that counts. -/
def decimals (unit : Nat) : Nat → Nat → Text
  | 0, _ => []
  | places + 1, part =>
    if part = 0 then []
    else Nat.digitChar (part * 10 / unit) :: decimals unit places (part * 10 % unit)

/-- A time in units of so many nanoseconds, which it takes so many places to write
exactly. -/
def inUnits (unit places : Nat) (name : String) (nanoseconds : Nat) : String :=
  let fraction := decimals unit places (nanoseconds % unit)
  toString (nanoseconds / unit)
    ++ (if fraction = [] then "" else "." ++ String.ofList fraction) ++ name

/-- A time of so many nanoseconds. -/
def render (nanoseconds : Nat) : String :=
  if 1_000_000_000 ≤ nanoseconds then inUnits 1_000_000_000 9 "s" nanoseconds
  else if 1_000_000 ≤ nanoseconds then inUnits 1_000_000 6 "ms" nanoseconds
  else if 1_000 ≤ nanoseconds then inUnits 1_000 3 "µs" nanoseconds
  else inUnits 1 0 "ns" nanoseconds

-- The fraction stops at its last digit that counts, and may be absent.
example : render 1_050_000_000 = "1.05s" ∧ render 2_000 = "2µs" := by decide

end SymbolLog.Duration
