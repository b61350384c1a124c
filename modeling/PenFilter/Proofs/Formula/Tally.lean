import PenFilter.Formula.Expr.Parser

/-! # Reading with a tally

The parser hands its limits down: a cursor knows how many operators and calls may still follow, and
an operand how many levels are left.  Here the formula is read once more with a `Tally` that is
changed on the way: a level is counted when it is entered and discounted when it is left, an
operator or a call is counted when it is met, and a count is checked where it goes up.  The limits
bound nothing but these counts.  What bounds the recursion is a number `k` apart from them, for the
signed operands inside each other and for the rounds of the loops.

A `Tally.Reader` has no answer where this bound is used up, and none where it leaves a level though
none is open.  An error has a tally too, since a level is left also behind an operand that is
wrong. -/

namespace PenFilter

/-- A place in the tokens, how many levels are open there, and how many operators and calls have
been counted. -/
structure Tally where
  position : Nat := 0
  depth : Nat := 0
  operations : Nat := 0

namespace Tally

/-- Reads something from a tally on, if there is an answer. -/
abbrev Reader := ExceptT ParseError (StateT Tally Option)

/-! ### Single steps -/

/-- No answer. -/
def unanswered {α : Type} : Reader α := fun _ => none

/-- The place after the next token. -/
def next (b : Tally) : Tally := { b with position := b.position + 1 }

/-- The same place with one level more. -/
def opened (b : Tally) : Tally := { b with depth := b.depth + 1 }

/-- The same place with one operator or call more. -/
def counted (b : Tally) : Tally := { b with operations := b.operations + 1 }

@[simp] theorem position_next (b : Tally) : b.next.position = b.position + 1 := rfl

@[simp] theorem depth_opened (b : Tally) : b.opened.depth = b.depth + 1 := rfl

@[simp] theorem position_counted (b : Tally) : b.counted.position = b.position := rfl

/-- One token further. -/
def skip : Reader Unit := modify next

/-- One level more, if there may be one. -/
def enter : Reader Unit := do
  modify opened
  if maxDepth < (← get).depth then throw .tooDeep

/-- One level less; there is no answer where none is open. -/
def leave : StateT Tally Option Unit := fun b =>
  match b.depth with
  | 0 => none
  | d + 1 => some ((), { b with depth := d })

/-- One operator or call more, if there may be one. -/
def count : Reader Unit := do
  modify counted
  if maxOperations < (← get).operations then throw .tooLarge

section

variable (tokens : List Placed)

/-- The next token with its offset. -/
def next? (b : Tally) : Option Placed := tokens[b.position]?

/-- The next token. -/
def peek? (b : Tally) : Option Token := (b.next? tokens).map Placed.token

/-- The token before the place. -/
def previous? (b : Tally) : Option Token :=
  match b.position with
  | 0 => none
  | p + 1 => tokens[p]?.map Placed.token

/-- The next token, which is passed over if there is one. -/
def advance : Reader (Option Placed) := do
  let t := (← get).next? tokens
  if t.isSome then skip
  return t

/-- Passes over a certain token. -/
def expect (wanted : Token) (e : Expectation) : Reader Unit := do
  match ← advance tokens with
  | some t => if t.token = wanted then return () else throw (.unexpectedToken t.token e t.offset)
  | none => throw (.unexpectedEnd e)

/-- The operator of a sum that follows, passed over. -/
def sumOperator : Reader (Option Operator) := do
  match (← get).peek? tokens with
  | some .plus => skip; return some .add
  | some .minus => skip; return some .sub
  | _ => return none

/-- The operator of a product that follows, passed over unless it is left out. -/
def productOperator : Reader (Option Operator) := do
  let b ← get
  match b.peek? tokens with
  | some .star => skip; return some .mul
  | some .slash => skip; return some .div
  | t => return if Cursor.impliesProduct (b.previous? tokens) t then some .mul else none

end

/-! ### The grammar -/

/-- Further operands, each after an operator, joined to the left. -/
def chainTail (operator : Reader (Option Operator)) (operand : Reader Expr) :
    Nat → Expr → Reader Expr
  | 0, _ => unanswered
  | k + 1, lhs => do
    match ← operator with
    | none => return lhs
    | some op =>
      count
      let rhs ← operand
      chainTail operator operand k (.binary op lhs rhs)

/-- One or more operands with operators between them. -/
def chain (operator : Reader (Option Operator)) (operand : Reader Expr) (k : Nat) :
    Reader Expr := do
  let lhs ← operand
  chainTail operator operand k lhs

section

variable (schema : Schema) (tokens : List Placed)

/-- A product of signed operands. -/
def product (k : Nat) (signed : Reader Expr) : Reader Expr :=
  chain (productOperator tokens) signed k

/-- A sum of products. -/
def sum (k : Nat) (signed : Reader Expr) : Reader Expr :=
  chain (sumOperator tokens) (product tokens k signed) k

/-- Further arguments, each after a comma, and the closing parenthesis. -/
def argumentsTail (argument : Reader Expr) : Nat → List Expr → Reader (List Expr)
  | 0, _ => unanswered
  | k + 1, args => do
    match ← advance tokens with
    | some ⟨.comma, _⟩ =>
      let a ← argument
      argumentsTail argument k (args ++ [a])
    | some ⟨.closing, _⟩ => return args
    | some ⟨token, offset⟩ => throw (.unexpectedToken token .commaOrClosing offset)
    | none => throw (.unexpectedEnd .commaOrClosing)

/-- The arguments after an opening parenthesis, and the closing one. -/
def argumentList (k : Nat) (argument : Reader Expr) : Reader (List Expr) := do
  if (← get).peek? tokens = some .closing then
    skip
    return []
  else
    let a ← argument
    argumentsTail tokens argument k [a]

/-- An argument list on a level of its own, which stays open behind an error. -/
def arguments (k : Nat) (argument : Reader Expr) : Reader (List Expr) := do
  enter
  let args ← argumentList tokens k argument
  leave
  return args

/-- What a name that has been read stands for, with its arguments if it has any. -/
def named (arguments : Reader (List Expr)) (name : String) (offset : Nat) : Reader Expr := do
  if (← get).peek? tokens = some .opening then
    match Builtin.ofName? name with
    | none => throw (.unknownFunction name offset)
    | some f =>
      skip
      count
      let args ← arguments
      if args.length = f.arity then return .call f args
      else throw (.wrongArity f args.length)
  else
    match Expr.ofName schema name offset with
    | .ok e => return e
    | .error e => throw e

/-- A number, a name, a call or a group. -/
def primary (group : Reader Expr) (arguments : Reader (List Expr)) : Reader Expr := do
  match ← advance tokens with
  | some ⟨.number value, _⟩ => return .number value
  | some ⟨.opening, _⟩ =>
    let e ← group
    expect tokens .closing .closing
    return e
  | some ⟨.name name, offset⟩ => named schema tokens arguments name offset
  | some ⟨token, offset⟩ => throw (.unexpectedToken token .operand offset)
  | none => throw (.unexpectedEnd .operand)

/-- A primary, and its exponent if one follows. -/
def power (primary signed : Reader Expr) : Reader Expr := do
  let base ← primary
  if (← get).peek? tokens = some .caret then
    skip
    count
    let exponent ← signed
    return .binary .pow base exponent
  else return base

/-- An operand after one sign, or a power. -/
def withSign (power signed : Reader Expr) : Reader Expr := do
  match (← get).peek? tokens with
  | some .minus =>
    skip
    count
    let e ← signed
    return .neg e
  | some .plus =>
    skip
    signed
  | _ => power

/-- An operand on a level of its own, which is left also behind an error. -/
def onLevel (operand : Reader Expr) : Reader Expr := ExceptT.mk do
  match ← enter.run with
  | .error e => return .error e
  | .ok () =>
    let result ← operand.run
    leave
    return result

/-- An operand with its signs. -/
def signed : Nat → Reader Expr
  | 0 => unanswered
  | k + 1 =>
    let group := sum tokens k (signed k)
    let primary := primary schema tokens group (arguments tokens k group)
    onLevel (withSign tokens (power tokens primary (signed k)) (signed k))

/-- All tokens as one sum. -/
def whole (k : Nat) : Reader Expr := do
  if tokens.isEmpty then throw .empty
  else
    let e ← sum tokens k (signed schema tokens k)
    match (← get).next? tokens with
    | none => return e
    | some t => throw (.unexpectedToken t.token .operatorOrEnd t.offset)

/-- The expression that a list of tokens spells, if there is an answer. -/
def ofTokens (k : Nat) : Option (Except ParseError Expr) := (whole schema tokens k {}).map Prod.fst

end

end Tally

end PenFilter
