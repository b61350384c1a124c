/-! # Decimal numbers and their written form

A `Decimal` is a natural number times a power of ten, the exact value of a numeral before it
is rounded to a binary format.  A `Numeral` is what a signed numeral may denote: such a
number, an infinity, or not a number at all.

* `Decimal.digits` and `Decimal.ofDigits` pass between a natural number and its digits;
  `Decimal.ofDigits_digits` says that reading undoes writing.
* `Decimal.read?` reads digits with an optional point and an optional exponent.  At least one
  digit is needed on either side of the point; an exponent needs a digit of its own.
* `Numeral.read?` adds an optional sign and the words for the other values.
-/

namespace PenFilter

/-- The number `coeff * 10 ^ exp`. -/
structure Decimal where
  coeff : Nat
  exp : Int
deriving DecidableEq, Repr

namespace Decimal

/-- The decimal digits of a number, the most significant first. -/
def digits (n : Nat) : List Char := Nat.toDigits 10 n

/-- A natural number in decimal digits. -/
def text (n : Nat) : String := String.ofList (digits n)

/-- The number that a list of digits spells, zero for none. -/
def ofDigits (ds : List Char) : Nat := Nat.ofDigitChars 10 ds 0

theorem ofDigits_digits (n : Nat) : ofDigits (digits n) = n :=
  Nat.ofDigitChars_toDigits (by decide) (by decide)

theorem digits_ne_nil (n : Nat) : digits n ≠ [] := Nat.toDigits_ne_nil

/-- The same number with no trailing zero in its coefficient; zero is `0 * 10 ^ 0`. -/
def normalize (d : Decimal) : Decimal :=
  if d.coeff = 0 then ⟨0, 0⟩ else
    let ds := digits d.coeff
    let kept := (ds.reverse.dropWhile (· == '0')).reverse
    ⟨ofDigits kept, d.exp + (ds.length - kept.length : Nat)⟩

/-- The power of ten of the leading digit. -/
def leadingExp (d : Decimal) : Int := d.exp + (digits d.coeff).length - 1

/-- An optional sign; true for a minus. -/
def sign? : List Char → Bool × List Char
  | '-' :: cs => (true, cs)
  | '+' :: cs => (false, cs)
  | cs => (false, cs)

/-- What follows the digits of a numeral: nothing, or an exponent that ends the text. -/
def exponent? : List Char → Option Int
  | [] => some 0
  | c :: cs =>
    if c == 'e' || c == 'E' then
      let (negative, ds) := sign? cs
      if ds.isEmpty || ds.any (!·.isDigit) then none
      else some (if negative then -(ofDigits ds : Int) else ofDigits ds)
    else none

/-- Digits with an optional point, then an optional exponent, and nothing else. -/
def read? (cs : List Char) : Option Decimal :=
  let whole := cs.takeWhile Char.isDigit
  let (fraction, rest) : List Char × List Char := match cs.dropWhile Char.isDigit with
    | '.' :: cs => (cs.takeWhile Char.isDigit, cs.dropWhile Char.isDigit)
    | cs => ([], cs)
  if whole.isEmpty && fraction.isEmpty then none
  else (exponent? rest).map fun e => ⟨ofDigits (whole ++ fraction), e - fraction.length⟩

end Decimal

/-- What a signed numeral denotes. -/
inductive Numeral where
  | finite (negative : Bool) (value : Decimal)
  | infinite (negative : Bool)
  | nan (negative : Bool)
deriving DecidableEq, Repr

/-- An optional sign, then a decimal or one of the words `inf`, `infinity` and `nan` in
letters of either case. -/
def Numeral.read? (cs : List Char) : Option Numeral :=
  let (negative, body) := Decimal.sign? cs
  match (Decimal.read? body, String.ofList (body.map Char.toLower)) with
  | (some d, _) => some (.finite negative d)
  | (none, "inf") => some (.infinite negative)
  | (none, "infinity") => some (.infinite negative)
  | (none, "nan") => some (.nan negative)
  | _ => none

end PenFilter
