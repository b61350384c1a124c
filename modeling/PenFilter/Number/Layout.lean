import PenFilter.Number.Shortest

/-! # Written forms of binary numbers

A `Layout` holds the choices of one way to write numbers: which exponents are written out in
full, whether whole numbers keep a `.0`, and how an exponent is signed.

* `Layout.plain` never uses an exponent and shows whole numbers without a point.
* `Layout.debug` shows a point in every number and uses an exponent for very large and very
  small ones.
* `Layout.json fmt` is the form in JSON texts.
* `Binary.scientific` writes a fixed number of significant digits instead of the fewest. -/

namespace PenFilter

open Float.Model

/-- The choices of one written form. -/
structure Layout where
  /-- the powers of ten of the leading digit that need no exponent -/
  positional : Int → Bool
  /-- whole numbers without an exponent end in `.0` -/
  keepsPoint : Bool
  /-- positive exponents carry a plus sign -/
  signsExponent : Bool
  /-- which of two nearest decimals stands for a number in their middle -/
  tie : Tie

namespace Layout

/-- Digits with a point where the power of ten puts it. -/
def positionalText (keepsPoint : Bool) (d : Decimal) : List Char :=
  let ds := Decimal.digits d.coeff
  match d.exp with
  | .ofNat k => ds ++ List.replicate k '0' ++ if keepsPoint then ['.', '0'] else []
  | .negSucc k =>
    let places := k + 1
    let padded := List.replicate (places + 1 - ds.length) '0' ++ ds
    padded.take (padded.length - places) ++ '.' :: padded.drop (padded.length - places)

/-- One digit, the others after a point, and the power of ten after an `e`. -/
def exponentText (signs : Bool) (d : Decimal) : List Char :=
  let e := d.leadingExp
  let mantissa := match Decimal.digits d.coeff with
    | c :: c' :: cs => c :: '.' :: c' :: cs
    | cs => cs
  mantissa ++ 'e' :: (if e < 0 then ['-'] else if signs then ['+'] else []) ++
    Decimal.digits e.natAbs

/-- A decimal without trailing zeros in its coefficient. -/
def decimalText (l : Layout) (d : Decimal) : List Char :=
  if l.positional d.leadingExp then positionalText l.keepsPoint d
  else exponentText l.signsExponent d

/-- Never an exponent. -/
def plain : Layout := ⟨fun _ => true, false, false, .up⟩

/-- An exponent from `1e16` on and below `0.0001`. -/
def debug : Layout := ⟨fun e => -4 ≤ e && e < 16, true, false, .up⟩

/-- The form of numbers in JSON. -/
def json (fmt : Format) : Layout :=
  ⟨fun e => if fmt.mantissaBits ≤ 24 then -6 ≤ e && e ≤ 12 else -5 ≤ e && e ≤ 15,
    true, true, .toEven⟩

end Layout

namespace Binary

variable {fmt : Format}

/-- The words for the values without digits, and a minus sign before any other that has its
sign bit set. -/
def signed (x : Binary fmt) (magnitude : List Char) : List Char :=
  if x.isNaN then ['N', 'a', 'N']
  else (if x.isNegative then ['-'] else []) ++
    if x.isInfinite then ['i', 'n', 'f'] else magnitude

/-- The digits of the magnitude of `x`. -/
def magnitudeText (l : Layout) (x : Binary fmt) : List Char :=
  match x.unpack with
  | .finite _ m e _ => l.decimalText (x.abs.shortest l.tie m e)
  | _ => l.decimalText ⟨0, 0⟩

/-- The text of `x` with the fewest digits that read back. -/
def text (l : Layout) (x : Binary fmt) : String :=
  String.ofList (x.signed (x.magnitudeText l))

/-- The text with `n` significant digits and an exponent; what is smaller than `10 ^ -9` is
shown as zero. -/
def scientific (n : Nat) (x : Binary fmt) : String :=
  String.ofList <| match x.unpack with
  | .finite _ m e _ =>
    let r := Ratio.ofBinary m e
    if r.num * Nat.pow 10 9 < r.den then ['0']
    else x.signed (Layout.exponentText false (r.significant n))
  | .zero _ => ['0']
  | _ => x.signed []

end Binary

end PenFilter
