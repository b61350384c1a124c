import PenFilter.Proofs.Formula.Simulation

/-! # Tokens at other offsets

The offset of a token is kept for messages only.  If the tokens of a list stand somewhere else, the
machine goes through the same states (`Automaton.step_relocate`), and the parser builds the same
tree or finds the same error at the same token (`Expr.ofTokens_relocate`). -/

namespace PenFilter

/-- The same token at another offset. -/
def Placed.relocate (move : Nat → Nat) (t : Placed) : Placed := ⟨t.token, move t.offset⟩

/-- The same error at another offset. -/
def ParseError.relocate (move : Nat → Nat) : ParseError → ParseError
  | empty => empty
  | unexpectedChar c offset => unexpectedChar c (move offset)
  | invalidNumber text offset => invalidNumber text (move offset)
  | unexpectedToken found expected offset => unexpectedToken found expected (move offset)
  | unexpectedEnd expected => unexpectedEnd expected
  | unknownVariable name offset => unknownVariable name (move offset)
  | unknownFunction name offset => unknownFunction name (move offset)
  | wrongArity f n => wrongArity f n
  | tooDeep => tooDeep
  | tooLarge => tooLarge

namespace Automaton

variable (move : Nat → Nat)

def Focus.relocate : Focus → Focus
  | .operand => .operand
  | .name text offset => .name text (move offset)
  | .opened f => .opened f
  | .value e last => .value e last

def State.relocate (s : State) : State := { s with focus := s.focus.relocate move }

/-- What comes of a token when every offset is another. -/
def relocated (r : Except ParseError State) : Except ParseError State :=
  (r.map (State.relocate move)).mapError (ParseError.relocate move)

variable {schema : Schema} {k : Context} {budget : Nat} {e : Expr} {last : Option Token}
  {text : String} {offset : Nat}

/-! ### Steps -/

theorem spend_relocate {f g : Nat → Except ParseError State}
    (h : ∀ budget, f budget = relocated move (g budget)) :
    spend budget >>= f = relocated move (spend budget >>= g) := by
  cases budget with
  | zero => rfl
  | succ budget => exact h budget

theorem ite_relocate {p : Prop} [Decidable p] {r s r' s' : Except ParseError State}
    (hr : r' = relocated move r) (hs : s' = relocated move s) :
    (if p then r' else s') = relocated move (if p then r else s) := by
  rw [hr, hs, apply_ite (relocated move)]

theorem expect_relocate : expect k budget = relocated move (expect k budget) :=
  ite_relocate move rfl rfl

theorem beginOperand_relocate (t : Placed) :
    beginOperand k budget (t.relocate move) = relocated move (beginOperand k budget t) := by
  obtain ⟨token, offset⟩ := t
  cases token with
  | number value | name text => rfl
  | opening | plus => exact expect_relocate move
  | minus => exact spend_relocate move fun _ => expect_relocate move
  | star | slash | caret | closing | comma => rfl

theorem expectHere_relocate (t : Placed) :
    expectHere k budget (t.relocate move) = relocated move (expectHere k budget t) :=
  ite_relocate move (beginOperand_relocate move t) rfl

theorem close_relocate (t : Placed) :
    close k budget e (t.relocate move) = relocated move (close k budget e t) := by
  unfold close
  split
  · rfl
  · rfl
  · simp only
    exact ite_relocate move rfl rfl

theorem nextArgument_relocate (t : Placed) :
    nextArgument k budget e (t.relocate move) = relocated move (nextArgument k budget e t) := by
  unfold nextArgument
  split
  · exact expect_relocate move
  · rfl

theorem follow_relocate (t : Placed) :
    follow k budget e last (t.relocate move) = relocated move (follow k budget e last t) := by
  obtain ⟨token, offset⟩ := t
  cases token with
  | caret | star | slash | plus | minus =>
      exact spend_relocate move fun _ => expect_relocate move
  | closing => exact close_relocate move _
  | comma => exact nextArgument_relocate move _
  | number value | name text | opening =>
      exact ite_relocate move (spend_relocate move fun _ => expectHere_relocate move _) rfl

theorem openCall_relocate :
    openCall k budget text (move offset) = relocated move (openCall k budget text offset) := by
  unfold openCall
  split
  · rfl
  · exact spend_relocate move fun _ => ite_relocate move rfl rfl

theorem ofName_relocate :
    Expr.ofName schema text (move offset) =
      (Expr.ofName schema text offset).mapError (ParseError.relocate move) := by
  unfold Expr.ofName
  split
  · rfl
  · split
    · rfl
    · split <;> rfl

theorem followName_relocate (t : Placed) :
    followName schema k budget text (move offset) (t.relocate move) =
      relocated move (followName schema k budget text offset t) := by
  refine ite_relocate move (openCall_relocate move) ?_
  rw [ofName_relocate]
  cases Expr.ofName schema text offset with
  | error error => rfl
  | ok e => exact follow_relocate move t

theorem firstArgument_relocate {f : Builtin} (t : Placed) :
    firstArgument k budget f (t.relocate move) = relocated move (firstArgument k budget f t) :=
  ite_relocate move rfl (expectHere_relocate move t)

/-- **One token at another offset** leads to the same state or to the same error. -/
theorem step_relocate (s : State) (t : Placed) :
    step schema (s.relocate move) (t.relocate move) = relocated move (step schema s t) := by
  obtain ⟨focus, k, budget⟩ := s
  cases focus with
  | operand => exact beginOperand_relocate move t
  | name text offset => exact followName_relocate move t
  | opened f => exact firstArgument_relocate move t
  | value e last => exact follow_relocate move t

/-! ### Runs -/

theorem finish_relocate (s : State) :
    finish schema (s.relocate move) =
      (finish schema s).mapError (ParseError.relocate move) := by
  obtain ⟨focus, k, budget⟩ := s
  have hvalue : ∀ e, finishValue k e =
      (finishValue k e).mapError (ParseError.relocate move) := by
    intro e
    unfold finishValue
    split <;> rfl
  cases focus with
  | operand => rfl
  | value e last => exact hvalue e
  | name text offset =>
      show (Expr.ofName schema text (move offset) >>= finishValue k) =
        (Expr.ofName schema text offset >>= finishValue k).mapError _
      rw [ofName_relocate]
      cases Expr.ofName schema text offset with
      | error error => rfl
      | ok e => exact hvalue e
  | opened f =>
      show (expect (k.enclose (.call f [])) budget >>= fun _ => .error (.unexpectedEnd .operand)) =
        (expect (k.enclose (.call f [])) budget >>= fun _ =>
          .error (.unexpectedEnd .operand)).mapError _
      unfold expect
      split <;> rfl

theorem run_relocate (s : State) (tokens : List Placed) :
    run schema (s.relocate move) (tokens.map (Placed.relocate move)) =
      (run schema s tokens).mapError (ParseError.relocate move) := by
  induction tokens generalizing s with
  | nil => exact finish_relocate move s
  | cons t tokens ih =>
      rw [List.map_cons, run, run, step_relocate]
      cases step schema s t with
      | error error => rfl
      | ok s' => exact ih s'

end Automaton

namespace Expr

/-- Tokens at other offsets are the same tree, or the same error at the same token. -/
theorem ofTokens_relocate (schema : Schema) (move : Nat → Nat) (tokens : List Placed) :
    ofTokens schema (tokens.map (Placed.relocate move)) =
      (ofTokens schema tokens).mapError (ParseError.relocate move) := by
  cases tokens with
  | nil => rfl
  | cons t tokens =>
      have hne : (t :: tokens).map (Placed.relocate move) ≠ [] := List.cons_ne_nil _ _
      rw [ofTokens_eq_run schema hne, ofTokens_eq_run schema (List.cons_ne_nil t tokens)]
      exact Automaton.run_relocate move Automaton.start (t :: tokens)

end Expr

end PenFilter
