import PenFilter.Formula.Expr.Parser
import PenFilter.Formula.Program

/-! # From expressions to programs

An `Emitter` writes the instructions of a tree, operands first, and counts how many values they
leave on the stack.  A subtree without variables becomes one constant (`Expr.fold?`).
`Program.ofExpr` first checks that every variable sits in the slot that the schema gives its
name. -/

namespace PenFilter

namespace Expr

mutual

/-- The value of a tree without variables. -/
def fold? [Arithmetic] : Expr → Option Complex
  | number value => some (.ofReal value)
  | var _ _ => none
  | neg a => (fold? a).map Arithmetic.neg
  | binary op a b => do
    let a ← fold? a
    let b ← fold? b
    some (Arithmetic.binary op a b)
  | call f args => (foldAll? args).map (Arithmetic.call f)

/-- The values of a list of trees without variables. -/
def foldAll? [Arithmetic] : List Expr → Option (List Complex)
  | [] => some []
  | a :: as => do
    let a ← fold? a
    let as ← foldAll? as
    some (a :: as)

end

end Expr

/-- What has been written of a program. -/
structure Emitter where
  code : List Instr := []
  /-- how many values the code leaves on the stack -/
  depth : Nat := 0
  /-- the greatest of these numbers so far -/
  maxDepth : Nat := 0

namespace Emitter

/-- One more instruction, which adds a value. -/
def push (m : Emitter) (i : Instr) : Emitter where
  code := m.code ++ [i]
  depth := m.depth + 1
  maxDepth := max m.maxDepth (m.depth + 1)

/-- One more instruction, which takes `count` values away; never more than there are. -/
def pop (m : Emitter) (count : Nat) (i : Instr) : Emitter :=
  { m with code := m.code ++ [i], depth := m.depth - count }

mutual

/-- Writes the instructions that put the value of a tree on the stack. -/
def emit [Arithmetic] (m : Emitter) (e : Expr) : Emitter :=
  match e.fold? with
  | some value => m.push (.const value)
  | none =>
    match e with
    | .number value => m.push (.const (.ofReal value))
    | .var _ slot => m.push (.load slot)
    | .neg a => (m.emit a).pop 0 .neg
    | .binary op a b => ((m.emit a).emit b).pop 1 (.binary op)
    | .call f args => (m.emitAll args).pop (args.length - 1) (.call f)

/-- Writes the instructions of a list of trees in turn. -/
def emitAll [Arithmetic] (m : Emitter) : List Expr → Emitter
  | [] => m
  | a :: as => (m.emit a).emitAll as

end

end Emitter

/-- What is wrong with a variable in a slot, if anything is. -/
def Schema.mismatch? (schema : Schema) (name : String) (slot : Nat) : Option CompileError :=
  match schema.nameAt? slot with
  | none => some (.slotOutOfRange name slot schema.size)
  | some schemaName =>
    if schemaName = name then none else some (.schemaMismatch name schemaName slot)

namespace Program

/-- The program of an expression that was written as `source`. -/
def ofSource [Arithmetic] (schema : Schema) (source : String) (e : Expr) :
    Except CompileError Program :=
  match e.occurrences.findSome? fun (name, slot) => schema.mismatch? name slot with
  | some error => .error error
  | none =>
    let emitter : Emitter := .emit {} e
    .ok ⟨source, schema.size, emitter.code, emitter.maxDepth⟩

/-- The program of an expression. -/
def ofExpr [Arithmetic] (schema : Schema) (e : Expr) : Except CompileError Program :=
  ofSource schema e.text e

/-- The program of a formula text. -/
def ofFormula [Arithmetic] (schema : Schema) (source : String) :
    Except FormulaError Program :=
  match Expr.parse schema source with
  | .error error => .error (.parse error)
  | .ok e => match ofSource schema source e with
    | .error error => .error (.compile error)
    | .ok program => .ok program

end Program

end PenFilter
