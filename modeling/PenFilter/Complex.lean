import PenFilter.Number.Binary

/-! # Complex numbers in double precision

Formulas compute with complex numbers so that a root or a logarithm of a negative number is
an intermediate value and not a failure.  Products and quotients are the textbook ones with a
rounding at every step, which is visible: `0 * inf` makes both parts of a product something
that is not a number. -/

namespace PenFilter

structure Complex where
  re : Double
  im : Double
deriving DecidableEq

namespace Complex

def ofReal (x : Double) : Complex := ⟨x, .zero⟩

def zero : Complex := ofReal .zero

def one : Complex := ofReal .one

/-- The imaginary unit. -/
def i : Complex := ⟨.zero, .one⟩

/-- Neither part is a number. -/
def nan : Complex := ⟨.nan, .nan⟩

instance : Neg Complex := ⟨fun z => ⟨-z.re, -z.im⟩⟩

instance : Add Complex := ⟨fun z w => ⟨z.re + w.re, z.im + w.im⟩⟩

instance : Sub Complex := ⟨fun z w => ⟨z.re - w.re, z.im - w.im⟩⟩

instance : Mul Complex :=
  ⟨fun z w => ⟨z.re * w.re - z.im * w.im, z.re * w.im + z.im * w.re⟩⟩

instance : Div Complex :=
  ⟨fun z w =>
    let n := w.re * w.re + w.im * w.im
    ⟨(z.re * w.re + z.im * w.im) / n, (z.im * w.re - z.re * w.im) / n⟩⟩

/-- Both parts divided by a real number. -/
def unscale (z : Complex) (x : Double) : Complex := ⟨z.re / x, z.im / x⟩

/-- Both parts are numerically equal. -/
def eq (z w : Complex) : Bool := z.re.eq w.re && z.im.eq w.im

/-- The imaginary part is a zero of either sign. -/
def isReal (z : Complex) : Bool := z.im.isZero

/-- The quotient of two real numbers is real, so that `x / 0` is infinite; any other quotient
is the complex one. -/
def divide (z w : Complex) : Complex :=
  if z.isReal && w.isReal then ofReal (z.re / w.re) else z / w

end Complex

end PenFilter
