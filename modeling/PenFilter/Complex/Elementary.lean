import PenFilter.Complex

/-! # Elementary functions

First the functions of a real number in double precision, then their complex extensions on
the principal branch.  `Complex.pow` is the power that formulas use: it stays on the real line
wherever a real power exists. -/

namespace PenFilter

namespace Double

/-- The circle constant. -/
def pi : Double := ⟨0x400921FB54442D18#64⟩

/-- The base of natural logarithms. -/
def e : Double := ⟨0x4005BF0A8B145769#64⟩

/-- The natural logarithm of ten. -/
def ln10 : Double := ⟨0x40026BB1BBB55516#64⟩

def two : Double := ofNat 2

def sin : Double → Double := lift₁ Float.sin
def cos : Double → Double := lift₁ Float.cos
def asin : Double → Double := lift₁ Float.asin
def acos : Double → Double := lift₁ Float.acos
def sinh : Double → Double := lift₁ Float.sinh
def cosh : Double → Double := lift₁ Float.cosh
def exp : Double → Double := lift₁ Float.exp
def ln : Double → Double := lift₁ Float.log
def sqrt : Double → Double := lift₁ Float.sqrt
def floor : Double → Double := lift₁ Float.floor
def ceil : Double → Double := lift₁ Float.ceil

/-- The nearest whole number; a half goes away from zero. -/
def round : Double → Double := lift₁ Float.round

/-- The angle of the point with ordinate `y` and abscissa `x`.  When neither is a number, it is
the abscissa that is passed on. -/
def atan2 (y x : Double) : Double := ofResult [x, y] (y.toFloat.atan2 x.toFloat)

/-- A whole number that is not twice a whole number. -/
def isOdd (x : Double) : Bool := x.fract.isZero && !(x / two).fract.isZero

/-- The power of a real number.  A base that is not a number is the result of most powers, and
that of an odd one without its sign. -/
def pow (base exponent : Double) : Double :=
  lift₂ Float.pow (if base.isNaN && exponent.isOdd then base.abs else base) exponent

/-- One, minus one, or the value itself when it is neither positive nor negative. -/
def sign (x : Double) : Double :=
  if zero.lt x then one else if x.lt zero then -one else x

end Double

namespace Complex

/-- The distance from the origin. -/
def norm (z : Complex) : Double := z.re.hypot z.im

/-- The angle to the positive real axis. -/
def arg (z : Complex) : Double := z.im.atan2 z.re

/-- The number at distance `r` and angle `t`. -/
def polar (r t : Double) : Complex := ⟨r * t.cos, r * t.sin⟩

def exp (z : Complex) : Complex :=
  if z.re.isInfinite && z.re.isNegative && !z.im.isFinite then zero
  else if z.re.isInfinite && !z.re.isNegative && (z.im.isZero || !z.im.isFinite) then
    ⟨z.re, if z.im.isInfinite then .nan else z.im⟩
  else if z.re.isNaN && z.im.isZero then z
  else polar z.re.exp z.im

/-- The logarithm on the principal branch. -/
def log (z : Complex) : Complex := ⟨z.norm.ln, z.arg⟩

/-- The power through exponential and logarithm; anything to the power zero is one. -/
def powc (z w : Complex) : Complex := if w.eq zero then one else (w * z.log).exp

/-- The square root on the principal branch. -/
def principalSqrt (z : Complex) : Complex :=
  if z.im.isZero then
    if !z.re.isNegative then ⟨z.re.sqrt, z.im⟩
    else
      let y := (-z.re).sqrt
      ⟨.zero, if z.im.isNegative then -y else y⟩
  else if z.re.isZero then
    let x := Double.sqrt (z.im.abs / Double.two)
    ⟨x, if z.im.isNegative then -x else x⟩
  else polar z.norm.sqrt (z.arg / Double.two)

def sin (z : Complex) : Complex := ⟨z.re.sin * z.im.cosh, z.re.cos * z.im.sinh⟩

def cos (z : Complex) : Complex := ⟨z.re.cos * z.im.cosh, -z.re.sin * z.im.sinh⟩

def tan (z : Complex) : Complex :=
  let (x, y) := (z.re + z.re, z.im + z.im)
  unscale ⟨x.sin, y.sinh⟩ (x.cos + y.cosh)

def sinh (z : Complex) : Complex := ⟨z.re.sinh * z.im.cos, z.re.cosh * z.im.sin⟩

def cosh (z : Complex) : Complex := ⟨z.re.cosh * z.im.cos, z.re.sinh * z.im.sin⟩

def tanh (z : Complex) : Complex :=
  let (x, y) := (z.re + z.re, z.im + z.im)
  unscale ⟨x.sinh, y.sin⟩ (x.cosh + y.cos)

def principalAsin (z : Complex) : Complex := -i * ((one - z * z).principalSqrt + i * z).log

def principalAcos (z : Complex) : Complex := -i * (i * (one - z * z).principalSqrt + z).log

def atan (z : Complex) : Complex :=
  if z.eq i then ⟨.zero, .infinity _ false⟩
  else if z.eq (-i) then ⟨.zero, .infinity _ true⟩
  else ((one + i * z).log - (one - i * z).log) / ((one + one) * i)

/-- A real number in the closed interval from `-1` to `1`. -/
def inUnitInterval (z : Complex) : Bool :=
  z.isReal && (-Double.one).le z.re && z.re.le .one

/-- The root of a real number that is not negative is real. -/
def sqrt (z : Complex) : Complex :=
  if z.isReal && Double.zero.le z.re then ofReal z.re.sqrt else z.principalSqrt

/-- The logarithm of a positive real number is real. -/
def ln (z : Complex) : Complex :=
  if z.isReal && Double.zero.lt z.re then ofReal z.re.ln else z.log

def asin (z : Complex) : Complex :=
  if z.inUnitInterval then ofReal z.re.asin else z.principalAsin

def acos (z : Complex) : Complex :=
  if z.inUnitInterval then ofReal z.re.acos else z.principalAcos

/-- Two real numbers have a real power when the base is not negative, when the exponent is
whole, or when one of them is not finite. -/
def hasRealPower (base exponent : Double) : Bool :=
  Double.zero.le base || exponent.fract.isZero || !base.isFinite || !exponent.isFinite

/-- The power that formulas use. -/
def pow (base exponent : Complex) : Complex :=
  if base.isReal && exponent.isReal && hasRealPower base.re exponent.re then
    ofReal (base.re.pow exponent.re)
  else if base.eq zero then
    if Double.zero.lt exponent.re then base else ofReal (.infinity _ false)
  else base.powc exponent

end Complex

end PenFilter
