import Mathlib.Data.List.Basic
import PenFilter.Proofs.Formula.Simulation
import PenFilter.Proofs.Formula.Steps

/-! # Errors at the first impossible token

A token is refused for what comes before it, so whatever follows it is refused with it
(`Automaton.run_append`).  The error names the token itself
(`Automaton.eq_of_step_unexpectedToken`).  And from the state before it the reader could have come
to an end: `Automaton.State.completion` is an operand, if one must follow, and the closing
parentheses that are missing.

* `Expr.ofTokens_blames_first`: the parser complains of a token only if no tokens can follow that
  make it right, while the tokens before it can be completed; and where it complains that the tokens
  end, they can be completed. -/

namespace PenFilter

/-- The syntax is right: there is a tree, or a call has too few or too many arguments. -/
def Complete (r : Except ParseError Expr) : Prop :=
  (∃ e, r = .ok e) ∨ ∃ f n, r = .error (.wrongArity f n)

namespace Automaton

variable {schema : Schema} {s : State}

/-! ### Coming to an end -/

/-- What is missing: an operand, if one must follow, and closing parentheses. -/
def State.completion (s : State) : List Placed :=
  let closings := List.replicate s.context.outer.length ⟨.closing, 0⟩
  match s.focus with
  | .operand => ⟨.number .zero, 0⟩ :: closings
  | .opened _ => [⟨.closing, 0⟩]
  | .name _ _ | .value _ _ => closings

/-- After a primary all parentheses can be closed. -/
theorem complete_closings (k : Context) (budget : Nat) (e : Expr) (last : Option Token) :
    Complete (run schema ⟨.value e last, k, budget⟩
      (List.replicate k.outer.length ⟨.closing, 0⟩)) := by
  obtain ⟨level, outer⟩ := k
  -- on what is open: one parenthesis ends a group or a call, and a call may end the run
  induction outer generalizing level e last with
  | nil => exact .inl ⟨_, rfl⟩
  | cons p outer ih =>
      obtain ⟨bracket, l⟩ := p
      rw [List.length_cons, List.replicate_succ, run]
      cases bracket with
      | group => exact ih _ _ l
      | call f args =>
          show Complete ((if (args ++ [level.sum e]).length = f.arity then _ else _) >>= _)
          split
          · exact ih _ _ l
          · exact .inr ⟨f, _, rfl⟩

/-- From every state without an unknown name the reader can come to an end. -/
theorem complete_completion (h : s.Resolved schema) : Complete (run schema s s.completion) := by
  obtain ⟨focus, k, budget⟩ := s
  cases focus with
  | operand => exact complete_closings k budget _ _
  | value e last => exact complete_closings k budget e last
  | opened f => exact .inr ⟨f, 0, rfl⟩
  | name text offset =>
      obtain ⟨e, he⟩ := h text offset rfl
      -- what is appended does not make a call of the name
      have hopening : (List.replicate k.outer.length (⟨.closing, 0⟩ : Placed)).head?.map
          Placed.token ≠ some .opening := by
        cases k.outer.length <;> exact nofun
      show Complete (run schema _ (List.replicate k.outer.length ⟨.closing, 0⟩))
      rw [run_name hopening, he]
      exact complete_closings k budget e _

variable {found : Token} {expected : Expectation} {offset : Nat}

theorem openCall_ne_unexpectedToken {k : Context} {budget : Nat} {text : String} {at' : Nat} :
    openCall k budget text at' ≠ .error (.unexpectedToken found expected offset) := by
  unfold openCall
  split
  · exact nofun
  · refine spend_bind_of (P := (· ≠ _)) nofun fun budget => ?_
    split <;> exact nofun

theorem resolved_of_step {t : Placed}
    (h : step schema s t = .error (.unexpectedToken found expected offset)) :
    s.Resolved schema := by
  obtain ⟨focus, k, budget⟩ := s
  rintro text at' ⟨⟩
  rcases ofName_cases schema text at' with hknown | hunknown
  · exact hknown
  · simp only [step, followName, hunknown] at h
    split at h
    · exact absurd h openCall_ne_unexpectedToken
    · cases h

end Automaton

namespace Expr

open Automaton

variable {schema : Schema} {before : List Placed} {s : State}

theorem exists_complete (hbefore : stepAll schema start before = .ok s) (h : s.Resolved schema) :
    ∃ more, Complete (ofTokens schema (before ++ more)) := by
  refine ⟨s.completion, ?_⟩
  have hrun : Complete (run schema start (before ++ s.completion)) := by
    rw [run_append, hbefore]
    exact complete_completion h
  rw [ofTokens_eq_run schema]
  · exact hrun
  · intro hnil
    rw [hnil] at hrun
    obtain ⟨e, he⟩ | ⟨f, n, he⟩ := hrun <;> cases he

/-- **The parser complains of the first impossible token**: whatever follows the token, the same
error is found, while the tokens before it can be completed.  Where tokens are missing at the end,
there are some that complete the others. -/
theorem ofTokens_blames_first (schema : Schema) (tokens : List Placed) :
    (∀ found expected offset,
      ofTokens schema tokens = .error (.unexpectedToken found expected offset) →
      ∃ before after, tokens = before ++ ⟨found, offset⟩ :: after ∧
        (∀ other, ofTokens schema (before ++ ⟨found, offset⟩ :: other) =
          .error (.unexpectedToken found expected offset)) ∧
        ∃ more, Complete (ofTokens schema (before ++ more))) ∧
    ∀ expected, ofTokens schema tokens = .error (.unexpectedEnd expected) →
      ∃ more, Complete (ofTokens schema (tokens ++ more)) := by
  by_cases hnil : tokens = []
  · subst hnil
    exact ⟨nofun, nofun⟩
  rw [ofTokens_eq_run schema hnil]
  constructor
  · intro found expected offset h
    rcases run_error_cases h with ⟨before, t, after, s, rfl, hbefore, hstep⟩ | ⟨s, -, hfinish⟩
    · obtain rfl := eq_of_step_unexpectedToken hstep
      refine ⟨before, after, rfl, fun other => ?_, exists_complete hbefore (resolved_of_step hstep)⟩
      have hne : before ++ ⟨found, offset⟩ :: other ≠ [] := by simp
      rw [ofTokens_eq_run schema hne, run_append, hbefore]
      show run schema s (⟨found, offset⟩ :: other) = _
      rw [run, hstep]
      rfl
    · rcases finish_error_cases hfinish with ⟨_, ⟨⟩, _⟩ | ⟨_, _, ⟨⟩⟩ | ⟨⟨⟩, _⟩
  · intro expected h
    rcases run_error_cases h with ⟨before, t, after, s, -, -, hstep⟩ | ⟨s, hall, hfinish⟩
    · exact absurd hstep step_ne_unexpectedEnd
    · rcases finish_error_cases hfinish with ⟨_, -, hresolved⟩ | ⟨_, _, ⟨⟩⟩ | ⟨⟨⟩, _⟩
      exact exists_complete hall hresolved

/-- The theorem at `max(x 0)`, where the number is refused, and at `max(x,`, where tokens are
missing. -/
theorem ofTokens_blames_first_call :
    let schema : Schema := .ofList ["x"]
    let before : List Placed := [⟨.name "max", 0⟩, ⟨.opening, 3⟩, ⟨.name "x", 4⟩]
    let refused : List Placed := before ++ [⟨.number .zero, 6⟩, ⟨.closing, 7⟩]
    let ended : List Placed := before ++ [⟨.comma, 5⟩]
    (ofTokens schema refused = .error (.unexpectedToken (.number .zero) .commaOrClosing 6) ∧
      ∃ before after, refused = before ++ ⟨.number .zero, 6⟩ :: after ∧
        (∀ other, ofTokens schema (before ++ ⟨.number .zero, 6⟩ :: other) =
          .error (.unexpectedToken (.number .zero) .commaOrClosing 6)) ∧
        ∃ more, Complete (ofTokens schema (before ++ more))) ∧
    ofTokens schema ended = .error (.unexpectedEnd .operand) ∧
      ∃ more, Complete (ofTokens schema (ended ++ more)) := by
  intro schema before refused ended
  have hrefused : ofTokens schema refused =
      .error (.unexpectedToken (.number .zero) .commaOrClosing 6) := by cbv
  have hended : ofTokens schema ended = .error (.unexpectedEnd .operand) := by cbv
  exact ⟨⟨hrefused, (ofTokens_blames_first schema refused).1 _ _ _ hrefused⟩, hended,
    (ofTokens_blames_first schema ended).2 _ hended⟩

end Expr

end PenFilter
