import Mathlib.Algebra.GroupWithZero.Nat
import PenFilter.Proofs.Formula.Soundness

/-! # Reading a formula token by token

The parser is a recursion: what is still open is on its call stack, and a loop looks ahead before it
goes round.  `Automaton` is the same reader as a machine that is given one token at a time and holds
what is open in its state: inside of each pair of parentheses the sum and the product so far, and
the signs and bases in front of the operand.  Whatever happens with a token, it depends on the
tokens before it only through this state.

`Expr.ofTokens_eq_run`: the machine builds the same trees as the parser and fails with the same
errors.  So what is said of all prefixes of a list of tokens is said of the machine. -/

namespace PenFilter

/-- What follows a computation matters only if the computation succeeds. -/
theorem bind_congr_of_ok {ε α β : Type} {x : Except ε α} {f g : α → Except ε β}
    (h : ∀ a, x = .ok a → f a = g a) : x >>= f = x >>= g := by
  cases x with
  | error e => rfl
  | ok a => exact h a rfl

namespace Automaton

/-- What stands in front of an operand: a sign, or the base whose exponent the operand is. -/
inductive Front where
  | minus
  | plus
  | base (a : Expr)

/-- The tree of an operand with what stands in front of it. -/
def Front.close : Front → Expr → Expr
  | minus, e => .neg e
  | plus, e => e
  | base a, e => .binary .pow a e

/-- What is unfinished inside of one pair of parentheses. -/
structure Level where
  /-- the left operand of a sum, with its operator -/
  term : Option (Operator × Expr) := none
  /-- the left operand of a product, with its operator -/
  factor : Option (Operator × Expr) := none
  /-- what stands in front of the operand, the innermost first -/
  fronts : List Front := []

/-- The tree of a right operand with the left one, if there is a left one. -/
def joined : Option (Operator × Expr) → Expr → Expr
  | none, e => e
  | some (op, a), e => .binary op a e

namespace Level

/-- The operand that ends with the primary `e`. -/
def operand (l : Level) (e : Expr) : Expr := l.fronts.foldl (fun e front => front.close e) e

/-- The product that ends with the primary `e`. -/
def product (l : Level) (e : Expr) : Expr := joined l.factor (l.operand e)

/-- The sum that ends with the primary `e`. -/
def sum (l : Level) (e : Expr) : Expr := joined l.term (l.product e)

end Level

/-- What an opening parenthesis belongs to. -/
inductive Bracket where
  | group
  /-- a call, with the arguments before the one that is being read -/
  | call (f : Builtin) (args : List Expr)

/-- How many levels of nesting a pair of parentheses takes. -/
def Bracket.depth : Bracket → Nat
  | group => 1
  | call _ _ => 2

/-- What is open at a place, the innermost first. -/
structure Context where
  level : Level := {}
  outer : List (Bracket × Level) := []

namespace Context

/-- How many levels of nesting are in use. -/
def depth (k : Context) : Nat :=
  k.level.fronts.length + (k.outer.map fun (b, l) => b.depth + l.fronts.length).sum

/-- Something more in front of the operand. -/
def front (k : Context) (f : Front) : Context :=
  { k with level := { k.level with fronts := f :: k.level.fronts } }

/-- The product that ends with the primary `e` becomes a left operand. -/
def multiply (k : Context) (op : Operator) (e : Expr) : Context :=
  { k with level := { term := k.level.term, factor := some (op, k.level.product e) } }

/-- The sum that ends with the primary `e` becomes a left operand. -/
def add (k : Context) (op : Operator) (e : Expr) : Context :=
  { k with level := { term := some (op, k.level.sum e) } }

/-- A new pair of parentheses. -/
def enclose (k : Context) (b : Bracket) : Context := ⟨{}, (b, k.level) :: k.outer⟩

/-- What may follow a sum, besides more operands. -/
def expectation (k : Context) : Expectation :=
  match k.outer with
  | [] => .operatorOrEnd
  | (.group, _) :: _ => .closing
  | (.call _ _, _) :: _ => .commaOrClosing

end Context

/-- What has just been read. -/
inductive Focus where
  /-- nothing, and an operand must follow -/
  | operand
  /-- a name, which an opening parenthesis would make the name of a function -/
  | name (text : String) (offset : Nat)
  /-- a function with its opening parenthesis -/
  | opened (f : Builtin)
  /-- a primary, with its last token -/
  | value (e : Expr) (last : Option Token)

structure State where
  focus : Focus
  context : Context
  budget : Nat

/-- One more operator or call, if there may be one. -/
def spend : Nat → Except ParseError Nat
  | 0 => .error .tooLarge
  | k + 1 => .ok k

/-- An operand must follow, unless it would be too deep. -/
def expect (k : Context) (budget : Nat) : Except ParseError State :=
  if k.depth < maxDepth then .ok ⟨.operand, k, budget⟩ else .error .tooDeep

/-- A token where an operand must begin. -/
def beginOperand (k : Context) (budget : Nat) (t : Placed) : Except ParseError State :=
  match t.token with
  | .number value => .ok ⟨.value (.number value) (some t.token), k, budget⟩
  | .name text => .ok ⟨.name text t.offset, k, budget⟩
  | .opening => expect (k.enclose .group) budget
  | .minus => do expect (k.front .minus) (← spend budget)
  | .plus => expect (k.front .plus) budget
  | _ => .error (.unexpectedToken t.token .operand t.offset)

/-- An operand must follow, and its first token is here. -/
def expectHere (k : Context) (budget : Nat) (t : Placed) : Except ParseError State :=
  if k.depth < maxDepth then beginOperand k budget t else .error .tooDeep

/-- A closing parenthesis after the primary `e`. -/
def close (k : Context) (budget : Nat) (e : Expr) (t : Placed) : Except ParseError State :=
  match k.outer with
  | [] => .error (.unexpectedToken t.token .operatorOrEnd t.offset)
  | (.group, l) :: outer => .ok ⟨.value (k.level.sum e) (some t.token), ⟨l, outer⟩, budget⟩
  | (.call f args, l) :: outer =>
    let args := args ++ [k.level.sum e]
    if args.length = f.arity then
      .ok ⟨.value (.call f args) (some t.token), ⟨l, outer⟩, budget⟩
    else .error (.wrongArity f args.length)

/-- A comma after the primary `e`. -/
def nextArgument (k : Context) (budget : Nat) (e : Expr) (t : Placed) : Except ParseError State :=
  match k.outer with
  | (.call f args, l) :: outer =>
    expect (Context.enclose ⟨l, outer⟩ (.call f (args ++ [k.level.sum e]))) budget
  | _ => .error (.unexpectedToken t.token k.expectation t.offset)

/-- A token after the primary `e`, whose last token is `last`. -/
def follow (k : Context) (budget : Nat) (e : Expr) (last : Option Token) (t : Placed) :
    Except ParseError State :=
  match t.token with
  | .caret => do expect (k.front (.base e)) (← spend budget)
  | .star => do expect (k.multiply .mul e) (← spend budget)
  | .slash => do expect (k.multiply .div e) (← spend budget)
  | .plus => do expect (k.add .add e) (← spend budget)
  | .minus => do expect (k.add .sub e) (← spend budget)
  | .closing => close k budget e t
  | .comma => nextArgument k budget e t
  | .number _ | .name _ | .opening =>
    if Cursor.impliesProduct last (some t.token) then do
      expectHere (k.multiply .mul e) (← spend budget) t
    else .error (.unexpectedToken t.token k.expectation t.offset)

/-- The opening parenthesis after the name of a function. -/
def openCall (k : Context) (budget : Nat) (text : String) (offset : Nat) :
    Except ParseError State :=
  match Builtin.ofName? text with
  | none => .error (.unknownFunction text offset)
  | some f => do
    let budget ← spend budget
    if k.depth + 1 < maxDepth then .ok ⟨.opened f, k, budget⟩ else .error .tooDeep

/-- A token after a name. -/
def followName (schema : Schema) (k : Context) (budget : Nat) (text : String) (offset : Nat)
    (t : Placed) : Except ParseError State :=
  if t.token = .opening then openCall k budget text offset
  else do follow k budget (← Expr.ofName schema text offset) (some (.name text)) t

/-- A token after a function with its opening parenthesis.  There is no function without
arguments. -/
def firstArgument (k : Context) (budget : Nat) (f : Builtin) (t : Placed) :
    Except ParseError State :=
  if t.token = .closing then .error (.wrongArity f 0)
  else expectHere (k.enclose (.call f [])) budget t

/-- One token. -/
def step (schema : Schema) (s : State) (t : Placed) : Except ParseError State :=
  match s.focus with
  | .operand => beginOperand s.context s.budget t
  | .name text offset => followName schema s.context s.budget text offset t
  | .opened f => firstArgument s.context s.budget f t
  | .value e last => follow s.context s.budget e last t

/-- The tokens end after the primary `e`. -/
def finishValue (k : Context) (e : Expr) : Except ParseError Expr :=
  match k.outer with
  | [] => .ok (k.level.sum e)
  | _ => .error (.unexpectedEnd k.expectation)

/-- The tokens end. -/
def finish (schema : Schema) (s : State) : Except ParseError Expr :=
  match s.focus with
  | .operand => .error (.unexpectedEnd .operand)
  | .name text offset => do finishValue s.context (← Expr.ofName schema text offset)
  | .opened f => do
    let _ ← expect (s.context.enclose (.call f [])) s.budget
    .error (.unexpectedEnd .operand)
  | .value e _ => finishValue s.context e

/-- A list of tokens up to its end. -/
def run (schema : Schema) (s : State) : List Placed → Except ParseError Expr
  | [] => finish schema s
  | t :: ts => do run schema (← step schema s t) ts

/-- The state before the first token. -/
def start : State := ⟨.operand, {}, maxOperations⟩

/-! ### The machine at a cursor -/

variable {schema : Schema}

/-- What becomes of the tokens from a cursor on when an operand must follow. -/
def operandAt (schema : Schema) (k : Context) (c : Cursor) : Except ParseError Expr := do
  run schema (← expect k c.budget) c.rest

/-- What becomes of them after the primary `e`. -/
def valueAt (schema : Schema) (k : Context) (e : Expr) (c : Cursor) : Except ParseError Expr :=
  run schema ⟨.value e c.previous, k, c.budget⟩ c.rest

/-- What becomes of them after a function with its opening parenthesis. -/
def openedAt (schema : Schema) (k : Context) (f : Builtin) (c : Cursor) : Except ParseError Expr :=
  if k.depth + 1 < maxDepth then run schema ⟨.opened f, k, c.budget⟩ c.rest else .error .tooDeep

theorem expectHere_bind_run (k : Context) (budget : Nat) (t : Placed) (rest : List Placed)
    (last : Option Token) :
    (expectHere k budget t >>= fun s => run schema s rest) =
      operandAt schema k ⟨last, t :: rest, budget⟩ := by
  unfold expectHere operandAt expect
  split <;> rfl

theorem count_bind {α : Type} (c : Cursor) (f : Cursor → Except ParseError α) :
    c.count >>= f = spend c.budget >>= fun budget => f { c with budget } := by
  obtain ⟨previous, rest, budget⟩ := c
  cases budget <;> rfl

section

variable {k : Context} {e : Expr} {c : Cursor}

/-! ### Where an operand must begin -/

theorem operandAt_of_depth (h : k.depth < maxDepth) (c : Cursor) :
    operandAt schema k c = run schema ⟨.operand, k, c.budget⟩ c.rest := by
  rw [operandAt, expect, if_pos h]
  rfl

theorem operandAt_minus (h : k.depth < maxDepth) (hc : c.peek? = some .minus) :
    operandAt schema k c = c.advance.count >>= operandAt schema (k.front .minus) := by
  obtain ⟨offset, rest, hrest⟩ := Cursor.rest_of_peek? hc
  rw [operandAt_of_depth h, count_bind, Cursor.advance, hrest, run]
  exact bind_assoc _ _ _

theorem operandAt_plus (h : k.depth < maxDepth) (hc : c.peek? = some .plus) :
    operandAt schema k c = operandAt schema (k.front .plus) c.advance := by
  obtain ⟨offset, rest, hrest⟩ := Cursor.rest_of_peek? hc
  rw [operandAt_of_depth h, Cursor.advance, hrest]
  rfl

theorem operandAt_number (h : k.depth < maxDepth) {value : Double}
    (hc : c.peek? = some (.number value)) :
    operandAt schema k c = valueAt schema k (.number value) c.advance := by
  obtain ⟨offset, rest, hrest⟩ := Cursor.rest_of_peek? hc
  rw [operandAt_of_depth h, Cursor.advance, hrest]
  rfl

theorem operandAt_opening (h : k.depth < maxDepth) (hc : c.peek? = some .opening) :
    operandAt schema k c = operandAt schema (k.enclose .group) c.advance := by
  obtain ⟨offset, rest, hrest⟩ := Cursor.rest_of_peek? hc
  rw [operandAt_of_depth h, Cursor.advance, hrest]
  rfl

theorem operandAt_call (h : k.depth < maxDepth) {text : String} {offset : Nat}
    {rest : List Placed} (hc : c.rest = ⟨.name text, offset⟩ :: rest)
    (hopening : c.advance.peek? = some .opening) :
    operandAt schema k c =
      match Builtin.ofName? text with
      | none => .error (.unknownFunction text offset)
      | some f => c.advance.advance.count >>= openedAt schema k f := by
  obtain ⟨offset', rest', hrest⟩ := Cursor.rest_of_peek? hopening
  obtain rfl : rest = ⟨.opening, offset'⟩ :: rest' := by
    rw [← hrest, Cursor.advance, hc]
  have hstep : operandAt schema k c =
      openCall k c.budget text offset >>= fun s => run schema s rest' := by
    rw [operandAt_of_depth h, hc]
    rfl
  rw [hstep, openCall]
  cases Builtin.ofName? text with
  | none => rfl
  | some f =>
      simp only [count_bind, bind_assoc, Cursor.advance, hc]
      refine bind_congr fun budget => ?_
      unfold openedAt
      split <;> rfl

theorem run_name {text : String} {offset budget : Nat} {rest : List Placed}
    (hopening : rest.head?.map Placed.token ≠ some .opening) :
    run schema ⟨.name text offset, k, budget⟩ rest =
      Expr.ofName schema text offset >>= fun e =>
        run schema ⟨.value e (some (.name text)), k, budget⟩ rest := by
  cases rest with
  | nil => rfl
  | cons t rest =>
      have ht : t.token ≠ .opening := fun ht => hopening (congrArg some ht)
      show followName schema k budget text offset t >>= (fun s => run schema s rest) = _
      rw [followName, if_neg ht]
      exact bind_assoc _ _ _

theorem operandAt_name (h : k.depth < maxDepth) {text : String} {offset : Nat}
    {rest : List Placed} (hc : c.rest = ⟨.name text, offset⟩ :: rest)
    (hopening : c.advance.peek? ≠ some .opening) :
    operandAt schema k c =
      Expr.ofName schema text offset >>= fun e => valueAt schema k e c.advance := by
  have hadvance : c.advance = ⟨some (.name text), rest, c.budget⟩ := by rw [Cursor.advance, hc]
  have hstep : operandAt schema k c = run schema ⟨.name text offset, k, c.budget⟩ rest := by
    rw [operandAt_of_depth h, hc]
    rfl
  rw [hadvance] at hopening
  rw [hstep, hadvance]
  exact run_name hopening

theorem operandAt_of_not_begins (h : k.depth < maxDepth)
    (hc : ∀ t, c.peek? = some t → ¬ Grammar.BeginsOperand t) :
    operandAt schema k c = .error (c.unexpected .operand) := by
  rw [operandAt_of_depth h]
  obtain ⟨previous, rest, budget⟩ := c
  cases rest with
  | nil => rfl
  | cons t rest =>
      obtain ⟨token, offset⟩ := t
      have hbegins := hc token rfl
      cases token with
      | number value | name text | opening => exact absurd (.inl trivial) hbegins
      | plus => exact absurd (.inr (.inl rfl)) hbegins
      | minus => exact absurd (.inr (.inr rfl)) hbegins
      | star | slash | caret | closing | comma => rfl

/-! ### After a primary -/

theorem valueAt_caret (hc : c.peek? = some .caret) :
    valueAt schema k e c = c.advance.count >>= operandAt schema (k.front (.base e)) := by
  obtain ⟨offset, rest, hrest⟩ := Cursor.rest_of_peek? hc
  rw [valueAt, count_bind, Cursor.advance, hrest, run]
  exact bind_assoc _ _ _

theorem valueAt_sum {op : Operator} {d : Cursor} (hc : c.sumOperator? = some (op, d)) :
    valueAt schema k e c = d.count >>= operandAt schema (k.add op e) := by
  rcases Cursor.sumOperator?_eq_some hc with ⟨hp, rfl, rfl⟩ | ⟨hp, rfl, rfl⟩ <;>
  · obtain ⟨offset, rest, hrest⟩ := Cursor.rest_of_peek? hp
    rw [valueAt, count_bind, Cursor.advance, hrest, run]
    exact bind_assoc _ _ _

theorem valueAt_product {op : Operator} {d : Cursor} (hc : c.productOperator? = some (op, d)) :
    valueAt schema k e c = d.count >>= operandAt schema (k.multiply op e) := by
  rcases Cursor.productOperator?_eq_some hc with
    ⟨hp, rfl, rfl⟩ | ⟨hp, rfl, rfl⟩ | ⟨⟨t, u, ht, hu, hj⟩, rfl, rfl⟩
  · obtain ⟨offset, rest, hrest⟩ := Cursor.rest_of_peek? hp
    rw [valueAt, count_bind, Cursor.advance, hrest, run]
    exact bind_assoc _ _ _
  · obtain ⟨offset, rest, hrest⟩ := Cursor.rest_of_peek? hp
    rw [valueAt, count_bind, Cursor.advance, hrest, run]
    exact bind_assoc _ _ _
  · -- the next token begins the operand itself
    obtain ⟨offset, rest, hrest⟩ := Cursor.rest_of_peek? hu
    have hfollow : follow k d.budget e d.previous ⟨u, offset⟩ =
        spend d.budget >>= fun budget => expectHere (k.multiply .mul e) budget ⟨u, offset⟩ := by
      rw [ht]
      cases hj <;> rfl
    have hstep : valueAt schema k e d =
        follow k d.budget e d.previous ⟨u, offset⟩ >>= fun s => run schema s rest := by
      rw [valueAt, hrest]
      rfl
    rw [hstep, hfollow, bind_assoc, count_bind, hrest]
    exact bind_congr fun budget => expectHere_bind_run _ budget _ rest d.previous

theorem valueAt_of_beginsPrimary {t : Token} (ht : c.peek? = some t)
    (hbegins : Grammar.BeginsPrimary t) (hproduct : c.productOperator? = none) :
    valueAt schema k e c = .error (c.unexpected k.expectation) := by
  obtain ⟨offset, rest, hrest⟩ := Cursor.rest_of_peek? ht
  have himplied : Cursor.impliesProduct c.previous (some t) = false := by
    unfold Cursor.productOperator? at hproduct
    rw [ht] at hproduct
    cases t <;> first | exact hbegins.elim | simpa using hproduct
  have hfollow : follow k c.budget e c.previous ⟨t, offset⟩ =
      .error (.unexpectedToken t k.expectation offset) := by
    unfold follow
    cases t <;> first | exact hbegins.elim | exact if_neg (Bool.eq_false_iff.mp himplied)
  rw [valueAt, Cursor.unexpected, hrest, run]
  show follow k c.budget e c.previous ⟨t, offset⟩ >>= (fun s => run schema s rest) = _
  rw [hfollow]
  rfl

/-- Unless an exponent follows, only what the product and the sum have come to matters. -/
theorem valueAt_congr {k' : Context} {e' : Expr} (hc : c.peek? ≠ some .caret)
    (hterm : k.level.term = k'.level.term) (hproduct : k.level.product e = k'.level.product e')
    (houter : k.outer = k'.outer) : valueAt schema k e c = valueAt schema k' e' c := by
  have hsum : k.level.sum e = k'.level.sum e' := by rw [Level.sum, Level.sum, hterm, hproduct]
  have hmultiply : ∀ op, k.multiply op e = k'.multiply op e' := by
    intro op
    simp only [Context.multiply, hterm, hproduct, houter]
  have hadd : ∀ op, k.add op e = k'.add op e' := by
    intro op
    simp only [Context.add, hsum, houter]
  have hexpectation : k.expectation = k'.expectation := by
    unfold Context.expectation
    rw [houter]
  obtain ⟨previous, rest, budget⟩ := c
  cases rest with
  | nil =>
      show finishValue k e = finishValue k' e'
      unfold finishValue
      rw [houter, hsum, hexpectation]
  | cons t rest =>
      have hcaret : t.token ≠ .caret := fun ht => hc (congrArg some ht)
      show follow k budget e previous t >>= _ = follow k' budget e' previous t >>= _
      unfold follow close nextArgument
      rw [houter, hsum, hexpectation]
      simp only [hmultiply, hadd]
      split
      · rename_i ht
        exact absurd ht hcaret
      all_goals rfl

/-- Then an operand is complete with what stands in front of it. -/
theorem valueAt_front (f : Front) (hc : c.peek? ≠ some .caret) :
    valueAt schema (k.front f) e c = valueAt schema k (f.close e) c :=
  valueAt_congr hc rfl rfl rfl

variable {outer : List (Bracket × Level)} {term : Option (Operator × Expr)} {op : Operator}
  {a : Expr}

/-- And the product up to here is complete. -/
theorem valueAt_multiply (hc : c.peek? ≠ some .caret) :
    valueAt schema (Context.multiply ⟨{ term }, outer⟩ op a) e c =
      valueAt schema ⟨{ term }, outer⟩ (.binary op a e) c :=
  valueAt_congr hc rfl rfl rfl

/-- Where no product goes on, the sum up to here is complete. -/
theorem valueAt_add (hc : c.peek? ≠ some .caret) (hproduct : c.productOperator? = none) :
    valueAt schema (Context.add ⟨{}, outer⟩ op a) e c =
      valueAt schema ⟨{}, outer⟩ (.binary op a e) c := by
  by_cases hbegins : ∃ t, c.peek? = some t ∧ Grammar.BeginsPrimary t
  · obtain ⟨t, ht, hbegins⟩ := hbegins
    rw [valueAt_of_beginsPrimary ht hbegins hproduct, valueAt_of_beginsPrimary ht hbegins hproduct]
    rfl
  · obtain ⟨previous, rest, budget⟩ := c
    cases rest with
    | nil => rfl
    | cons t rest =>
        obtain ⟨token, offset⟩ := t
        cases token with
        | caret => exact absurd rfl hc
        | star | slash => cases hproduct
        | number value | name text | opening => exact absurd ⟨_, rfl, trivial⟩ hbegins
        | plus | minus | closing | comma => rfl

end

end Automaton

end PenFilter
