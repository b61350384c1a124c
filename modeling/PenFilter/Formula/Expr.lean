import PenFilter.Formula.Builtin
import PenFilter.Number.Layout

/-! # Expressions

An `Expr` is a formula as a tree.  A variable carries its name and the slot that the schema
gave it, so that the tree can be checked against another schema later.

* `Expr.eval` is the value of a tree when every name has a value.
* `Expr.occurrences` lists the variables in reading order.
* `Expr.display` writes a tree with all its parentheses. -/

namespace PenFilter

inductive Operator where
  | add | sub | mul | div | pow
deriving DecidableEq, Repr

namespace Operator

def symbol : Operator → Char
  | add => '+'
  | sub => '-'
  | mul => '*'
  | div => '/'
  | pow => '^'

def apply : Operator → Complex → Complex → Complex
  | add => (· + ·)
  | sub => (· - ·)
  | mul => (· * ·)
  | div => Complex.divide
  | pow => Complex.pow

end Operator

/-- What a sign, an operator and a function make of their operands.  Whatever gives a formula a
value takes this as a parameter. -/
class Arithmetic where
  neg : Complex → Complex
  binary : Operator → Complex → Complex → Complex
  call : Builtin → List Complex → Complex

/-- The arithmetic of complex numbers in double precision. -/
instance Arithmetic.complex : Arithmetic := ⟨(- ·), Operator.apply, Builtin.apply⟩

inductive Expr where
  | number (value : Double)
  | var (name : String) (slot : Nat)
  | neg (operand : Expr)
  | binary (op : Operator) (lhs rhs : Expr)
  | call (function : Builtin) (args : List Expr)

namespace Expr

mutual

/-- The value of an expression whose variables have the values `env`. -/
def eval [Arithmetic] (env : String → Double) : Expr → Complex
  | number value => .ofReal value
  | var name _ => .ofReal (env name)
  | neg a => Arithmetic.neg (eval env a)
  | binary op a b => Arithmetic.binary op (eval env a) (eval env b)
  | call f args => Arithmetic.call f (evalAll env args)

/-- The values of a list of expressions. -/
def evalAll [Arithmetic] (env : String → Double) : List Expr → List Complex
  | [] => []
  | a :: as => eval env a :: evalAll env as

end

mutual

/-- The variables with their slots, in reading order. -/
def occurrences : Expr → List (String × Nat)
  | number _ => []
  | var name slot => [(name, slot)]
  | neg a => occurrences a
  | binary _ a b => occurrences a ++ occurrences b
  | call _ args => occurrencesAll args

def occurrencesAll : List Expr → List (String × Nat)
  | [] => []
  | a :: as => occurrences a ++ occurrencesAll as

end

/-- No variable occurs. -/
def isConstant (e : Expr) : Bool := e.occurrences.isEmpty

mutual

/-- How many nodes a tree has. -/
def nodeCount : Expr → Nat
  | number _ => 1
  | var _ _ => 1
  | neg a => 1 + nodeCount a
  | binary _ a b => 1 + nodeCount a + nodeCount b
  | call _ args => 1 + nodeCountAll args

def nodeCountAll : List Expr → Nat
  | [] => 0
  | a :: as => nodeCount a + nodeCountAll as

end

mutual

/-- The tree with all its parentheses. -/
def display : Expr → List Char
  | number value => (value.text .plain).toList
  | var name _ => name.toList
  | neg a => ['(', '-'] ++ display a ++ [')']
  | binary op a b => '(' :: display a ++ [' ', op.symbol, ' '] ++ display b ++ [')']
  | call f args => f.name.toList ++ '(' :: displayAll args ++ [')']

/-- The trees of a list with a comma and a blank between them. -/
def displayAll : List Expr → List Char
  | [] => []
  | [a] => display a
  | a :: as => display a ++ [',', ' '] ++ displayAll as

end

def text (e : Expr) : String := String.ofList e.display

end Expr

end PenFilter
