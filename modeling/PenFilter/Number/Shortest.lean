import PenFilter.Number.Binary
import PenFilter.Number.Ratio

/-! # The shortest decimal that reads back

`Binary.shortest` finds, for a finite number other than zero, a decimal with the fewest digits
that rounds to the same magnitude; of two such decimals it takes the nearer.  For each count
of digits only the two neighbours of the number on that decimal grid are tried: the numbers
that round to a given one form an interval around it, so if a point of the grid lies inside,
one of the two neighbours does.  `Binary.ofDecimal_of_shortestOfLength` states that a decimal
found this way reads back. -/

namespace PenFilter

open Float.Model

namespace Decimal

/-- All digits of `m * 2 ^ e`. -/
def exact (m : Nat) (e : Int) : Decimal :=
  match e with
  | .ofNat k => ⟨m <<< k, 0⟩
  | .negSucc k => ⟨m * Nat.pow 5 (k + 1), .negSucc k⟩

end Decimal

namespace Binary

variable {fmt : Format}

/-- So many digits tell all numbers of a format apart. -/
def maxDigits (fmt : Format) : Nat := fmt.mantissaBits * 30103 / 100000 + 2

/-- The nearest decimal of `n` digits that rounds to `x`, if there is one. -/
def shortestOfLength (tie : Tie) (x : Binary fmt) (r : Ratio) (n : Nat) : Option Decimal :=
  let unit := r.leadingExp + 1 - n
  let scaled := r.inUnits unit
  [⟨scaled.nearest tie, unit⟩, ⟨scaled.farther tie, unit⟩].find? fun d => ofDecimal fmt d = x

theorem ofDecimal_of_shortestOfLength {tie : Tie} {x : Binary fmt} {r : Ratio} {n : Nat}
    {d : Decimal} (h : x.shortestOfLength tie r n = some d) : ofDecimal fmt d = x := by
  simpa using List.find?_some h

/-- The decimal with the fewest digits that rounds to `x`, which is the positive number
`m * 2 ^ e`. -/
def shortest (tie : Tie) (x : Binary fmt) (m : Nat) (e : Int) : Decimal :=
  let r := Ratio.ofBinary m e
  ((List.range (maxDigits fmt)).findSome? fun n => x.shortestOfLength tie r (n + 1)).getD
    (.exact m e) |>.normalize

end Binary

end PenFilter
