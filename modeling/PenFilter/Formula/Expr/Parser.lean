import PenFilter.Formula.Expr
import PenFilter.Formula.Lexeme
import PenFilter.Formula.Schema

/-! # The grammar of formulas

    sum      ::= product (('+' | '-') product)*
    product  ::= signed (('*' | '/')? signed)*
    signed   ::= ('-' | '+') signed | power
    power    ::= primary ('^' signed)?
    primary  ::= NUMBER | NAME | NAME '(' sum (',' sum)* ')' | '(' sum ')'

Operators of a sum or a product associate to the left.  The sign of a product may be left out
between a number and a name or a group, and between two groups.

Nesting is limited, and the limit is what the grammar recurses on: `Expr.signed n` reads an
operand with `n` levels left and hands `n - 1` of them on.  The number of operators and calls is
limited too: a `Cursor` knows how many may still follow.  The two loops, over the operands of a
chain and over the arguments of a call, are bounded by the number of tokens left, since every
round takes at least one. -/

namespace PenFilter

/-- A place between two tokens, and how many operators and calls may still follow. -/
structure Cursor where
  /-- the token before this place -/
  previous : Option Token
  rest : List Placed
  budget : Nat

/-- Reads something from a cursor on. -/
abbrev Parser (α : Type) := Cursor → Except ParseError (α × Cursor)

namespace Cursor

def ofTokens (tokens : List Placed) : Cursor := ⟨none, tokens, maxOperations⟩

/-- The next token. -/
def peek? (c : Cursor) : Option Token := c.rest.head?.map Placed.token

/-- The place after the next token, or the same place at the end. -/
def advance (c : Cursor) : Cursor :=
  match c.rest with
  | [] => c
  | t :: rest => { c with previous := some t.token, rest }

/-- One more operator or call, if there may be one. -/
def count (c : Cursor) : Except ParseError Cursor :=
  match c.budget with
  | 0 => .error .tooLarge
  | k + 1 => .ok { c with budget := k }

/-- What to say when the next token is not what the grammar allows. -/
def unexpected (c : Cursor) (e : Expectation) : ParseError :=
  match c.rest with
  | [] => .unexpectedEnd e
  | t :: _ => .unexpectedToken t.token e t.offset

/-- An operator of a sum, and the place after it. -/
def sumOperator? (c : Cursor) : Option (Operator × Cursor) :=
  match c.peek? with
  | some .plus => some (.add, c.advance)
  | some .minus => some (.sub, c.advance)
  | _ => none

/-- Whether a product goes on without a sign. -/
def impliesProduct (previous next : Option Token) : Bool :=
  match previous, next with
  | some (.number _), some (.name _) => true
  | some (.number _), some .opening => true
  | some .closing, some .opening => true
  | _, _ => false

/-- An operator of a product, and the place after it, or here when the sign is left out. -/
def productOperator? (c : Cursor) : Option (Operator × Cursor) :=
  match c.peek? with
  | some .star => some (.mul, c.advance)
  | some .slash => some (.div, c.advance)
  | next => if impliesProduct c.previous next then some (.mul, c) else none

end Cursor

namespace Expr

/-- Further operands, each after an operator, joined to the left. -/
def chainTail (operator? : Cursor → Option (Operator × Cursor)) (operand : Parser Expr) :
    Nat → Expr → Parser Expr
  | 0, lhs, c => .ok (lhs, c)
  | k + 1, lhs, c =>
    match operator? c with
    | none => .ok (lhs, c)
    | some (op, c) => do
      let c ← c.count
      let (rhs, c) ← operand c
      chainTail operator? operand k (.binary op lhs rhs) c

/-- One or more operands with operators between them. -/
def chain (operator? : Cursor → Option (Operator × Cursor)) (operand : Parser Expr) :
    Parser Expr := fun c => do
  let (lhs, c) ← operand c
  chainTail operator? operand c.rest.length lhs c

/-- A product of signed operands. -/
def product (signed : Parser Expr) : Parser Expr := chain Cursor.productOperator? signed

/-- A sum of products. -/
def sum (signed : Parser Expr) : Parser Expr := chain Cursor.sumOperator? (product signed)

/-- Further arguments, each after a comma, and the closing parenthesis. -/
def argumentsTail (argument : Parser Expr) : Nat → List Expr → Parser (List Expr)
  | 0, _, c => .error (c.unexpected .commaOrClosing)
  | k + 1, args, c =>
    match c.peek? with
    | some .closing => .ok (args, c.advance)
    | some .comma => do
      let (a, c) ← argument c.advance
      argumentsTail argument k (args ++ [a]) c
    | _ => .error (c.unexpected .commaOrClosing)

/-- The arguments after an opening parenthesis, and the closing one. -/
def argumentList (argument : Parser Expr) : Parser (List Expr) := fun c =>
  match c.peek? with
  | some .closing => .ok ([], c.advance)
  | _ => do
    let (a, c) ← argument c
    argumentsTail argument c.rest.length [a] c

/-- What a name without arguments stands for: a variable of the schema, or else one of the
two constants. -/
def ofName (schema : Schema) (name : String) (offset : Nat) : Except ParseError Expr :=
  match schema.slotOf? name with
  | some slot => .ok (.var name slot)
  | none =>
    if name = "pi" then .ok (.number .pi)
    else if name = "e" then .ok (.number .e)
    else .error (.unknownVariable name offset)

/-- A call of the function with this name; the cursor is at the opening parenthesis. -/
def ofCall (arguments : Parser (List Expr)) (name : String) (offset : Nat) : Parser Expr :=
  fun c =>
    match Builtin.ofName? name with
    | none => .error (.unknownFunction name offset)
    | some f => do
      let c ← c.advance.count
      let (args, c) ← arguments c
      if args.length = f.arity then .ok (.call f args, c)
      else .error (.wrongArity f args.length)

/-- A number, a name, a call or a group. -/
def primary (schema : Schema) (group : Parser Expr) (arguments : Parser (List Expr)) :
    Parser Expr := fun c =>
  match c.rest with
  | ⟨.number value, _⟩ :: _ => .ok (.number value, c.advance)
  | ⟨.opening, _⟩ :: _ => do
    let (e, c) ← group c.advance
    if c.peek? = some .closing then .ok (e, c.advance) else .error (c.unexpected .closing)
  | ⟨.name name, offset⟩ :: _ =>
    if c.advance.peek? = some .opening then ofCall arguments name offset c.advance
    else (ofName schema name offset).map fun e => (e, c.advance)
  | _ => .error (c.unexpected .operand)

/-- A primary, and its exponent if one follows. -/
def power (primary signed : Parser Expr) : Parser Expr := fun c => do
  let (base, c) ← primary c
  if c.peek? = some .caret then
    let c ← c.advance.count
    let (exponent, c) ← signed c
    .ok (.binary .pow base exponent, c)
  else .ok (base, c)

mutual

/-- An operand with its signs, when `n` levels of nesting are left. -/
def signed (schema : Schema) : Nat → Parser Expr
  | 0 => fun _ => .error .tooDeep
  | n + 1 => fun c =>
    match c.peek? with
    | some .minus => do
      let c ← c.advance.count
      let (e, c) ← signed schema n c
      .ok (.neg e, c)
    | some .plus => signed schema n c.advance
    | _ => power (primary schema (sum (signed schema n)) (arguments schema n))
        (signed schema n) c

/-- The arguments of a call, when `n` levels of nesting are left. -/
def arguments (schema : Schema) : Nat → Parser (List Expr)
  | 0 => fun _ => .error .tooDeep
  | n + 1 => argumentList (sum (signed schema n))

end

/-- The expression that a list of tokens spells. -/
def ofTokens (schema : Schema) (tokens : List Placed) : Except ParseError Expr :=
  if tokens.isEmpty then .error .empty
  else do
    let (e, c) ← sum (signed schema maxDepth) (.ofTokens tokens)
    if c.rest.isEmpty then .ok e else .error (c.unexpected .operatorOrEnd)

/-- The expression that a text spells. -/
def parse (schema : Schema) (source : String) : Except ParseError Expr := do
  ofTokens schema (← Token.scan source)

end Expr

end PenFilter
