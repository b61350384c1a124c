import PenFilter.Number.Decimal

/-! # Binary floating-point numbers

`Binary fmt` is the bit pattern of a number in the binary format `fmt`; `Single` and `Double`
are the two formats that reports and formulas use.  Keeping the pattern keeps the sign of a
value that is not a number, which arithmetic passes on and which decides a branch of the
complex square root.

* `Binary.round` rounds `m * 2 ^ e` to nearest, ties to even; `Binary.ofNumeral` and
  `Binary.ofInt` round a numeral and an integer the same way, each with one rounding.
* `Binary.convert` moves a number to another format; from `Single` to `Double` it is exact.
* `Binary.nearestUInt32` rounds half away from zero and stays within 32 bits.
* Arithmetic on `Double` follows the rule of binary hardware for values that are not numbers:
  the first operand that is none is the result, and an operation without a numeric result
  gives the negative one.
-/

namespace PenFilter

open Float.Model

/-- A bit pattern of the binary format `fmt`. -/
structure Binary (fmt : Format) where
  bits : BitVec fmt.numBits
deriving DecidableEq

/-- Numbers of 32 bits, as a device reports them. -/
abbrev Single := Binary .binary32

/-- Numbers of 64 bits, as formulas compute them. -/
abbrev Double := Binary .binary64

namespace Binary

variable {fmt : Format}

/-- Sign, mantissa and exponent of a bit pattern. -/
def unpack (x : Binary fmt) : UnpackedFloat := UnpackedFloat.unpack fmt x.bits

/-- The bit pattern of a value; one that is too large becomes an infinity. -/
def pack (fmt : Format) (u : UnpackedFloat) : Binary fmt := ⟨UnpackedFloat.pack fmt u⟩

/-- Whether the sign bit is set. -/
def isNegative (x : Binary fmt) : Bool := x.bits.msb

/-- The same magnitude with the other sign. -/
def neg (x : Binary fmt) : Binary fmt := ⟨x.bits ^^^ BitVec.twoPow fmt.numBits (fmt.numBits - 1)⟩

/-- The same magnitude with the sign bit clear. -/
def abs (x : Binary fmt) : Binary fmt := if x.isNegative then x.neg else x

def withSign (negative : Bool) (x : Binary fmt) : Binary fmt := if negative then x.neg else x

/-- The value that is not a number, with a sign. -/
def nan (fmt : Format) (negative : Bool) : Binary fmt := withSign negative (pack fmt .notANumber)

def infinity (fmt : Format) (negative : Bool) : Binary fmt :=
  withSign negative (pack fmt (.infinity .positive))

def isNaN (x : Binary fmt) : Bool := x.unpack.isNaN

def isFinite (x : Binary fmt) : Bool := x.unpack.isFinite

def isInfinite (x : Binary fmt) : Bool := x.unpack.isInf

/-- The number `m * 2 ^ e` or its negative, rounded to nearest with ties to even. -/
def round (fmt : Format) (negative : Bool) (m : Nat) (e : Int) : Binary fmt :=
  withSign negative <| pack fmt <|
    if m = 0 then .zero .positive else UnpackedFloat.round fmt .positive m e

/-- The decimal `d`, rounded to nearest with ties to even. -/
def ofDecimal (fmt : Format) (d : Decimal) : Binary fmt :=
  pack fmt (UnpackedFloat.ofScientific fmt d.coeff d.exp)

/-- What a numeral denotes, in a binary format. -/
def ofNumeral (fmt : Format) : Numeral → Binary fmt
  | .finite negative d => withSign negative (ofDecimal fmt d)
  | .infinite negative => infinity fmt negative
  | .nan negative => nan fmt negative

/-- An integer, rounded to nearest with ties to even. -/
def ofInt (fmt : Format) (n : Int) : Binary fmt := round fmt (n < 0) n.natAbs 0

/-- A numeral read straight into a format, with one rounding. -/
def read? (fmt : Format) (cs : List Char) : Option (Binary fmt) :=
  (Numeral.read? cs).map (ofNumeral fmt)

/-- The same number in another format, rounded to nearest with ties to even. -/
def convert (target : Format) (x : Binary fmt) : Binary target :=
  match x.unpack with
  | .notANumber => nan target x.isNegative
  | .infinity _ => infinity target x.isNegative
  | .zero _ => round target x.isNegative 0 0
  | .finite _ m e _ => round target x.isNegative m e

/-- The natural number nearest to `m * 2 ^ e`; a half goes up. -/
def nearestNat (m : Nat) (e : Int) : Nat :=
  match e with
  | .ofNat k => m <<< k
  | .negSucc k => (m + Nat.pow 2 k) >>> (k + 1)

/-- The nearest natural number of 32 bits; a half goes up, and what lies outside goes to the
nearer end.  A value that is not a number goes to zero. -/
def nearestUInt32 (x : Binary fmt) : UInt32 :=
  match x.unpack with
  | .infinity .positive => UInt32.ofNatClamp UInt32.size
  | .finite .positive m e _ => UInt32.ofNatClamp (nearestNat m e)
  | _ => 0

end Binary

namespace Single

def toDouble (x : Single) : Double := x.convert .binary64

/-- The zero of reports that carry nothing. -/
def zero : Single := ⟨0#32⟩

end Single

namespace Double

def toFloat (x : Double) : Float := Float.ofBits (UInt64.ofBitVec x.bits)

/-- The nearest number of 32 bits. -/
def toSingle (x : Double) : Single := x.convert .binary32

/-- The result of an operation on `operands`.  When it is not a number, it is the first
operand that is none already, or else the negative one. -/
def ofResult (operands : List Double) (x : Float) : Double :=
  if x.isNaN then (operands.find? (·.isNaN)).getD (Binary.nan _ true) else ⟨x.toBits.toBitVec⟩

def ofNat (n : Nat) : Double := Binary.ofInt _ n

def zero : Double := ⟨0#64⟩

def one : Double := ofNat 1

/-- The value of missing operands. -/
def nan : Double := Binary.nan _ false

/-- A function of one number, on all values. -/
def lift₁ (f : Float → Float) (x : Double) : Double := ofResult [x] (f x.toFloat)

/-- A function of two numbers, on all values. -/
def lift₂ (f : Float → Float → Float) (x y : Double) : Double :=
  ofResult [x, y] (f x.toFloat y.toFloat)

instance : Neg Double := ⟨Binary.neg⟩
instance : Add Double := ⟨lift₂ (· + ·)⟩
instance : Sub Double := ⟨lift₂ (· - ·)⟩
instance : Mul Double := ⟨lift₂ (· * ·)⟩
instance : Div Double := ⟨lift₂ (· / ·)⟩

/-- Numeric equality: the two zeros are equal, and what is not a number equals nothing. -/
def eq (x y : Double) : Bool := x.toFloat == y.toFloat

def lt (x y : Double) : Bool := x.toFloat < y.toFloat

def le (x y : Double) : Bool := x.toFloat ≤ y.toFloat

def isZero (x : Double) : Bool := x.eq zero

/-- The smaller operand, the second of two equal ones; of a number and a value that is none,
the number, and the first of two values that are none. -/
def min (x y : Double) : Double := if x.lt y || y.isNaN then x else y

/-- The larger operand, the second of two equal ones; of a number and a value that is none,
the number, and the first of two values that are none. -/
def max (x y : Double) : Double := if y.lt x || y.isNaN then x else y

/-- The whole number nearest to zero on the same side as the value, or the value itself. -/
def trunc (x : Double) : Double := Binary.withSign x.isNegative (lift₁ Float.floor x.abs)

/-- The part after the point, with the sign of the value. -/
def fract (x : Double) : Double := x - x.trunc

/-- The sum of `m₁ * 2 ^ e₁` and `m₂ * 2 ^ e₂`, exactly. -/
def addExact (m₁ : Nat) (e₁ : Int) (m₂ : Nat) (e₂ : Int) : Nat × Int :=
  let e := Min.min e₁ e₂
  (m₁ <<< (e₁ - e).toNat + m₂ <<< (e₂ - e).toNat, e)

/-- The length of the hypotenuse: the square root of the exact sum of squares, rounded once.
An infinite side makes it infinite, whatever the other side is; otherwise a side that is not a
number is the result. -/
def hypot (x y : Double) : Double :=
  if x.isInfinite || y.isInfinite then Binary.infinity _ false
  else match x.unpack, y.unpack with
    | .finite _ m₁ e₁ _, .finite _ m₂ e₂ _ =>
      let (m, e) := addExact (m₁ * m₁) (2 * e₁) (m₂ * m₂) (2 * e₂)
      if h : 0 < m then Binary.pack _ (UnpackedFloat.sqrt .binary64 (.finite .positive m e h))
      else zero
    | .finite .., .zero _ => x.abs
    | .zero _, .finite .. => y.abs
    | .zero _, .zero _ => zero
    | _, _ => x + y

end Double

end PenFilter
