import PenFilter.Proofs.Formula.Automaton

/-! # What one token leads to

`Automaton.leads_step` is what any step of the machine does, as far as the token alone tells it: the
state after a token shows which token it was (`Automaton.Focus.After`), and the error of a token
that is not expected names that token.

A run fails at one of its tokens or at the end (`Automaton.run_error_cases`), and where the tokens
end there are few things that can be wrong (`Automaton.finish_error_cases`). -/

namespace PenFilter

/-- A token that an operand can end with. -/
def Token.endsOperand : Token → Bool
  | number _ | name _ | closing => true
  | _ => false

namespace Automaton

/-- The token before the place where a state is. -/
def Focus.After : Focus → Option Token → Prop
  | .operand, previous => previous.any Token.endsOperand = false
  | .name text _, previous => previous = some (.name text)
  | .opened _, previous => previous = some .opening
  | .value _ last, previous => last = previous ∧ previous.any Token.endsOperand = true

/-- What a token leads to.  An unexpected token is the one at hand, and where there is a token there
is no unexpected end. -/
def Leads (t : Placed) : Except ParseError State → Prop
  | .ok s => s.focus.After (some t.token)
  | .error (.unexpectedToken found _ offset) => t = ⟨found, offset⟩
  | .error (.unexpectedEnd _) => False
  | .error _ => True

variable {schema : Schema} {s : State} {k : Context} {budget : Nat} {e : Expr} {t : Placed}

/-! ### Steps -/

/-- A name without an opening parenthesis is known, or that is what is wrong. -/
theorem ofName_cases (schema : Schema) (text : String) (offset : Nat) :
    (∃ e, Expr.ofName schema text offset = .ok e) ∨
      Expr.ofName schema text offset = .error (.unknownVariable text offset) := by
  unfold Expr.ofName
  split
  · exact .inl ⟨_, rfl⟩
  · split
    · exact .inl ⟨_, rfl⟩
    · split
      · exact .inl ⟨_, rfl⟩
      · exact .inr rfl

theorem spend_bind_of {P : Except ParseError State → Prop} {f : Nat → Except ParseError State}
    (hlarge : P (.error .tooLarge)) (h : ∀ budget, P (f budget)) : P (spend budget >>= f) := by
  cases budget with
  | zero => exact hlarge
  | succ budget => exact h budget

theorem leads_expect (ht : t.token.endsOperand = false) : Leads t (expect k budget) := by
  unfold expect
  split
  · exact ht
  · trivial

theorem leads_beginOperand : Leads t (beginOperand k budget t) := by
  obtain ⟨token, offset⟩ := t
  cases token with
  | number value => exact ⟨rfl, rfl⟩
  | name text => rfl
  | opening | plus => exact leads_expect rfl
  | minus => exact spend_bind_of trivial fun _ => leads_expect rfl
  | star | slash | caret | closing | comma => rfl

theorem leads_expectHere : Leads t (expectHere k budget t) := by
  unfold expectHere
  split
  · exact leads_beginOperand
  · trivial

theorem leads_close (ht : t.token = .closing) : Leads t (close k budget e t) := by
  have hends : (some t.token).any Token.endsOperand = true := by
    rw [ht]
    rfl
  unfold close
  split
  · rfl
  · exact ⟨rfl, hends⟩
  · simp only
    split
    · exact ⟨rfl, hends⟩
    · trivial

theorem leads_nextArgument (ht : t.token = .comma) : Leads t (nextArgument k budget e t) := by
  unfold nextArgument
  split
  · exact leads_expect (by rw [ht]; rfl)
  · rfl

theorem leads_follow {last : Option Token} : Leads t (follow k budget e last t) := by
  obtain ⟨token, offset⟩ := t
  cases token with
  | caret | star | slash | plus | minus => exact spend_bind_of trivial fun _ => leads_expect rfl
  | closing => exact leads_close rfl
  | comma => exact leads_nextArgument rfl
  | number value | name text | opening =>
      simp only [follow]
      split
      · exact spend_bind_of trivial fun _ => leads_expectHere
      · rfl

theorem leads_openCall {text : String} {offset : Nat} (ht : t.token = .opening) :
    Leads t (openCall k budget text offset) := by
  unfold openCall
  split
  · trivial
  · refine spend_bind_of trivial fun _ => ?_
    split
    · exact congrArg some ht
    · trivial

/-- **One token**: the state after it shows which token it was, and an error names no other one. -/
theorem leads_step (schema : Schema) (s : State) (t : Placed) : Leads t (step schema s t) := by
  obtain ⟨focus, k, budget⟩ := s
  cases focus with
  | operand => exact leads_beginOperand
  | value e last => exact leads_follow
  | name text offset =>
      show Leads t (followName schema k budget text offset t)
      unfold followName
      split
      · rename_i hopening
        exact leads_openCall hopening
      · rcases ofName_cases schema text offset with ⟨e, he⟩ | hunknown
        · rw [he]
          exact leads_follow
        · rw [hunknown]
          trivial
  | opened f =>
      show Leads t (firstArgument k budget f t)
      unfold firstArgument
      split
      · trivial
      · exact leads_expectHere

theorem after_of_step {s' : State} (h : step schema s t = .ok s') :
    s'.focus.After (some t.token) := by
  have hleads := leads_step schema s t
  rwa [h] at hleads

theorem eq_of_step_unexpectedToken {found : Token} {expected : Expectation} {offset : Nat}
    (h : step schema s t = .error (.unexpectedToken found expected offset)) :
    t = ⟨found, offset⟩ := by
  have hleads := leads_step schema s t
  rwa [h] at hleads

theorem step_ne_unexpectedEnd {expected : Expectation} :
    step schema s t ≠ .error (.unexpectedEnd expected) := by
  intro h
  have hleads := leads_step schema s t
  rw [h] at hleads
  exact hleads

/-! ### The end of the tokens -/

/-- If a name has just been read, it is known. -/
def State.Resolved (schema : Schema) (s : State) : Prop :=
  ∀ text offset, s.focus = .name text offset → ∃ e, Expr.ofName schema text offset = .ok e

theorem finish_error_cases {error : ParseError} (h : finish schema s = .error error) :
    (∃ expected, error = .unexpectedEnd expected ∧ s.Resolved schema) ∨
      (∃ text offset, error = .unknownVariable text offset) ∨
      (error = .tooDeep ∧ ∃ f, s.focus = .opened f ∧
        maxDepth ≤ (s.context.enclose (.call f [])).depth) := by
  obtain ⟨focus, k, budget⟩ := s
  have hvalue : ∀ e, finishValue k e = .error error →
      ∃ expected, error = .unexpectedEnd expected := by
    intro e h
    unfold finishValue at h
    split at h
    · cases h
    · cases h
      exact ⟨_, rfl⟩
  cases focus with
  | operand =>
      cases h
      exact .inl ⟨_, rfl, by rintro _ _ ⟨⟩⟩
  | value e last =>
      obtain ⟨expected, rfl⟩ := hvalue e h
      exact .inl ⟨expected, rfl, by rintro _ _ ⟨⟩⟩
  | name text offset =>
      rcases ofName_cases schema text offset with ⟨e, he⟩ | hunknown
      · simp only [finish, he] at h
        obtain ⟨expected, rfl⟩ := hvalue e h
        refine .inl ⟨expected, rfl, ?_⟩
        rintro _ _ ⟨⟩
        exact ⟨e, he⟩
      · simp only [finish, hunknown] at h
        cases h
        exact .inr (.inl ⟨text, offset, rfl⟩)
  | opened f =>
      simp only [finish, expect] at h
      split at h
      · cases h
        exact .inl ⟨_, rfl, by rintro _ _ ⟨⟩⟩
      · rename_i hfull
        cases h
        exact .inr (.inr ⟨rfl, f, rfl, Nat.le_of_not_lt hfull⟩)

/-! ### Runs in two parts -/

/-- The state after some tokens. -/
def stepAll (schema : Schema) (s : State) (tokens : List Placed) : Except ParseError State :=
  tokens.foldlM (step schema) s

theorem run_append (s : State) (before after : List Placed) :
    run schema s (before ++ after) =
      stepAll schema s before >>= fun s => run schema s after := by
  induction before generalizing s with
  | nil => rfl
  | cons t before ih =>
      rw [List.cons_append, run, stepAll, List.foldlM_cons, bind_assoc]
      exact bind_congr fun s => ih s

/-- A run fails at one of its tokens or at the end. -/
theorem run_error_cases {tokens : List Placed} {error : ParseError}
    (h : run schema s tokens = .error error) :
    (∃ before t after s', tokens = before ++ t :: after ∧ stepAll schema s before = .ok s' ∧
      step schema s' t = .error error) ∨
    ∃ s', stepAll schema s tokens = .ok s' ∧ finish schema s' = .error error := by
  induction tokens generalizing s with
  | nil => exact .inr ⟨s, rfl, h⟩
  | cons t tokens ih =>
      rw [run] at h
      cases hstep : step schema s t with
      | error error' =>
          rw [hstep] at h
          cases h
          exact .inl ⟨[], t, tokens, s, rfl, rfl, hstep⟩
      | ok s₁ =>
          rw [hstep] at h
          have hfirst : ∀ us, stepAll schema s (t :: us) = stepAll schema s₁ us := by
            intro us
            rw [stepAll, List.foldlM_cons, hstep]
            rfl
          rcases ih h with ⟨before, u, after, s', rfl, hbefore, hu⟩ | ⟨s', hall, hfinish⟩
          · exact .inl ⟨t :: before, u, after, s', rfl, (hfirst before).trans hbefore, hu⟩
          · exact .inr ⟨s', (hfirst tokens).trans hall, hfinish⟩

end Automaton

end PenFilter
