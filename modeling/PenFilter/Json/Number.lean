import PenFilter.Json

/-! # What JSON numbers stand for

An integer that fits 64 bits stands for itself.  Any other number is a `Double`: its digits are
taken while they fit 64 bits, and the result is multiplied or divided by a power of ten in
double precision.  A number beyond the largest `Double` stands for nothing. -/

namespace PenFilter

namespace Json

inductive Numeric where
  | integer (value : Int)
  | double (value : Double)
deriving DecidableEq

namespace Numeric

/-- Digits are taken while the number they spell stays below `UInt64.size`. -/
def absorb (n : Nat) : List Char → Nat × List Char
  | [] => (n, [])
  | d :: ds =>
    let n' := 10 * n + (d.toNat - '0'.toNat)
    if n' < UInt64.size then absorb n' ds else (n, d :: ds)

/-- `10 ^ k`, rounded. -/
def powerOfTen (k : Nat) : Double := .ofDecimal _ ⟨1, k⟩

/-- `n * 10 ^ e` with one rounding for each operation, none when it is too large.  Powers of ten
beyond the range of `Double` are divided out in two steps. -/
def scaled? (n : Nat) (e : Int) : Option Double :=
  let x := Double.ofNat n
  match e with
  | .ofNat k =>
    if n = 0 then some x
    else if 308 < k then none
    else
      let y := x * powerOfTen k
      if y.isInfinite then none else some y
  | .negSucc k =>
    let k := k + 1
    if k ≤ 308 then some (x / powerOfTen k)
    else if k ≤ 616 then some (x / powerOfTen 308 / powerOfTen (k - 308))
    else some .zero

/-- The exponent that is written after the letter. -/
def exponentOf : List Char → Int
  | [] => 0
  | _ :: cs =>
    let (negative, ds) := Decimal.sign? cs
    if negative then -(Decimal.ofDigits ds : Int) else Decimal.ofDigits ds

/-- What a literal stands for. -/
def ofLiteral? (literal : List Char) : Option Numeric :=
  let (negative, body) := Decimal.sign? literal
  let (whole, afterWhole) := (body.takeWhile Char.isDigit, body.dropWhile Char.isDigit)
  let (n, unused) := absorb 0 whole
  if afterWhole.isEmpty && unused.isEmpty && (!negative || (0 < n && n ≤ UInt64.size / 2)) then
    some (.integer (if negative then -n else n))
  else
    let (fraction, tail) : List Char × List Char := match afterWhole with
      | '.' :: cs => (cs.takeWhile Char.isDigit, cs.dropWhile Char.isDigit)
      | cs => ([], cs)
    let (n, unusedFraction) := absorb n fraction
    let e : Int := unused.length - (fraction.length - unusedFraction.length : Nat) +
      exponentOf tail
    (scaled? n e).map fun x => .double (.withSign negative x)

/-- The nearest number of 32 bits. -/
def toSingle : Numeric → Single
  | integer n => .ofInt _ n
  | double x => x.toSingle

end Numeric

/-- A natural number below `bound`, written as an integer. -/
def toNat? (bound : Nat) : Json → Option Nat
  | .number literal =>
    match Numeric.ofLiteral? literal with
    | some (.integer (.ofNat n)) => if n < bound then some n else none
    | _ => none
  | _ => none

/-- A number of 32 bits. -/
def toSingle? : Json → Option Single
  | .number literal => (Numeric.ofLiteral? literal).map Numeric.toSingle
  | _ => none

end Json

end PenFilter
