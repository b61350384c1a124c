import PenFilter.Complex.Elementary

/-! # The functions a formula may call

`Builtin` lists them in the order in which they are offered.  Functions of order and rounding
look at the real parts of their operands and give a real result; all others are complex.  An
operand that is missing counts as a value that is not a number, so `Builtin.apply` answers for
operand lists of any length. -/

namespace PenFilter

inductive Builtin where
  | sin | cos | tan | asin | acos | atan | sinh | cosh | tanh
  | sqrt | exp | ln | log | abs | floor | ceil | round | sign
  | min | max | pow | atan2 | clamp
deriving DecidableEq, Repr

namespace Builtin

def all : List Builtin :=
  [.sin, .cos, .tan, .asin, .acos, .atan, .sinh, .cosh, .tanh, .sqrt, .exp, .ln, .log, .abs,
    .floor, .ceil, .round, .sign, .min, .max, .pow, .atan2, .clamp]

/-- The name in formulas. -/
def name : Builtin → String
  | sin => "sin" | cos => "cos" | tan => "tan" | asin => "asin" | acos => "acos"
  | atan => "atan" | sinh => "sinh" | cosh => "cosh" | tanh => "tanh" | sqrt => "sqrt"
  | exp => "exp" | ln => "ln" | log => "log" | abs => "abs" | floor => "floor"
  | ceil => "ceil" | round => "round" | sign => "sign" | min => "min" | max => "max"
  | pow => "pow" | atan2 => "atan2" | clamp => "clamp"

/-- How many operands a call has. -/
def arity : Builtin → Nat
  | min | max | pow | atan2 => 2
  | clamp => 3
  | _ => 1

def ofName? (s : String) : Option Builtin := all.find? (·.name == s)

theorem ofName?_name (f : Builtin) : ofName? f.name = some f := by cases f <;> rfl

theorem arity_pos (f : Builtin) : 0 < f.arity := by cases f <;> decide

/-- The value of a call. -/
def apply (f : Builtin) (operands : List Complex) : Complex :=
  let missing : Complex := .ofReal .nan
  let a := operands[0]?.getD missing
  let b := operands[1]?.getD missing
  match f with
  | sin => a.sin
  | cos => a.cos
  | tan => a.tan
  | asin => a.asin
  | acos => a.acos
  | atan => a.atan
  | sinh => a.sinh
  | cosh => a.cosh
  | tanh => a.tanh
  | sqrt => a.sqrt
  | exp => a.exp
  | ln => a.ln
  | log => a.ln.unscale .ln10
  | abs => .ofReal a.norm
  | floor => .ofReal a.re.floor
  | ceil => .ofReal a.re.ceil
  | round => .ofReal a.re.round
  | sign => .ofReal a.re.sign
  | min => .ofReal (a.re.min b.re)
  | max => .ofReal (a.re.max b.re)
  | pow => a.pow b
  | atan2 => .ofReal (a.re.atan2 b.re)
  | clamp => .ofReal ((a.re.max b.re).min (operands[2]?.getD missing).re)

end Builtin

end PenFilter
