import PenFilter.Formula.Expr
import PenFilter.Text.Quoted

/-! # Stack programs

A formula runs as a list of instructions for a stack of complex numbers.  `Instr.step` is one
instruction, `Instr.run` a list of them; both answer `none` when operands are missing, which a
compiled formula never causes.  `Program.call` starts from the empty stack whatever the stack it
is given holds, so that one stack can serve many programs. -/

namespace PenFilter

inductive Instr where
  | const (value : Complex)
  | load (slot : Nat)
  | neg
  | binary (op : Operator)
  | call (function : Builtin)
deriving DecidableEq

/-- Intermediate values, the newest first. -/
abbrev Stack := List Complex

namespace Instr

/-- One instruction, with the values of the variables by slot. -/
def step [Arithmetic] (args : Array Double) : Instr → Stack → Option Stack
  | const value, s => some (value :: s)
  | load slot, s => some (.ofReal (args[slot]?.getD .nan) :: s)
  | neg, [] => some []
  | neg, a :: s => some (Arithmetic.neg a :: s)
  | binary op, b :: a :: s => some (Arithmetic.binary op a b :: s)
  | binary _, _ => none
  | call f, s =>
    if f.arity ≤ s.length then
      some (Arithmetic.call f (s.take f.arity).reverse :: s.drop f.arity)
    else none

/-- A list of instructions in turn. -/
def run [Arithmetic] (args : Array Double) : List Instr → Stack → Option Stack
  | [], s => some s
  | i :: is, s => (i.step args s).bind (run args is)

end Instr

/-- A formula ready to run. -/
structure Program where
  /-- the text it was made from -/
  source : String
  /-- how many variables it is given -/
  arity : Nat
  code : List Instr
  /-- the deepest stack the code needs -/
  maxStack : Nat
deriving DecidableEq

namespace Program

/-- The value for the given variables, and the stack that is left over.  A wrong number of
variables has no value. -/
def call [Arithmetic] (p : Program) (args : Array Double) (stack : Stack) : Complex × Stack :=
  if args.size ≠ p.arity then (.nan, stack)
  else match Instr.run args p.code [] with
    | some (value :: rest) => (value, rest)
    | _ => (.nan, [])

/-- The program's text and sizes. -/
def describe (p : Program) : String :=
  quotedRecord "CompiledExpression"
    [("source", quoted p.source), ("arity", Decimal.text p.arity),
      ("instructions", Decimal.text p.code.length), ("max_stack", Decimal.text p.maxStack)]

end Program

end PenFilter
