import PenFilter.Number.Decimal

/-! # Rounding a quotient to a decimal grid

A positive quotient of natural numbers is placed between the two nearest multiples of a power
of ten.  `Ratio.nearest` picks the closer one, and `Tie` says which way an exact half goes;
`Ratio.significant` keeps a number of leading digits. -/

namespace PenFilter

/-- Which way the middle between two neighbours goes. -/
inductive Tie where
  | up
  | toEven
deriving DecidableEq, Repr

/-- The quotient `num / den`; the denominator is positive wherever one is built. -/
structure Ratio where
  num : Nat
  den : Nat
deriving DecidableEq, Repr

namespace Ratio

/-- The value `m * 2 ^ e`. -/
def ofBinary (m : Nat) (e : Int) : Ratio :=
  match e with
  | .ofNat k => ⟨m <<< k, 1⟩
  | .negSucc k => ⟨m, Nat.pow 2 (k + 1)⟩

/-- The quotient in units of `10 ^ x`. -/
def inUnits (r : Ratio) (x : Int) : Ratio :=
  match x with
  | .ofNat k => ⟨r.num, r.den * Nat.pow 10 k⟩
  | .negSucc k => ⟨r.num * Nat.pow 10 (k + 1), r.den⟩

/-- The nearest natural number. -/
def nearest (tie : Tie) (r : Ratio) : Nat :=
  let q := r.num / r.den
  match compare (2 * (r.num % r.den)) r.den with
  | .lt => q
  | .gt => q + 1
  | .eq => if tie = .up || q % 2 = 1 then q + 1 else q

/-- The neighbour that `nearest` passes over. -/
def farther (tie : Tie) (r : Ratio) : Nat :=
  let q := r.num / r.den
  if r.nearest tie = q then q + 1 else q

/-- The power of ten of the leading digit of a positive quotient. -/
def leadingExp (r : Ratio) : Int :=
  if r.den ≤ r.num then (Decimal.digits (r.num / r.den)).length - 1
  else
    let n := (Decimal.digits (r.den / r.num)).length
    if r.den ≤ r.num * Nat.pow 10 (n - 1) then 1 - n else -n

/-- The nearest decimal with `n` significant digits, a half going to the even neighbour. -/
def significant (n : Nat) (r : Ratio) : Decimal :=
  let x := r.leadingExp + 1 - n
  let c := (r.inUnits x).nearest .toEven
  if c = Nat.pow 10 n then ⟨Nat.pow 10 (n - 1), x + 1⟩ else ⟨c, x⟩

end Ratio

end PenFilter
