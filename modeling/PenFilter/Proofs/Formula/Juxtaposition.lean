import PenFilter.Proofs.Formula.Simulation
import PenFilter.Proofs.Formula.Steps

/-! # Products without a sign

`Token.starred` writes out the signs of products that are left out.  The rule for a left out sign
looks at the last token that was read, in whatever construct it was read, so it matters where the
reader is after a number or a closing parenthesis: always behind a primary, where a star may follow
(`Automaton.focus_of_step`).  There it makes no difference whether the star is written
(`Automaton.run_star`), and so the parser answers the same with and without the signs
(`Expr.ofTokens_starred`). -/

namespace PenFilter

instance Grammar.decidableJuxtaposed (t u : Token) : Decidable (Grammar.Juxtaposed t u) :=
  decidable_of_iff (Cursor.impliesProduct (some t) (some u)) <| by
    rw [Cursor.impliesProduct_iff]
    constructor
    · rintro ⟨t, u, ⟨⟩, ⟨⟩, hj⟩
      exact hj
    · exact fun hj => ⟨t, u, rfl, rfl, hj⟩

namespace Token

/-- Tokens with a star wherever the sign of a product is left out.  A star may stand at any
offset. -/
def starred (place : List Placed → Nat) : List Placed → List Placed
  | [] => []
  | [t] => [t]
  | t :: u :: ts =>
    if Grammar.Juxtaposed t.token u.token then
      t :: ⟨.star, place (u :: ts)⟩ :: starred place (u :: ts)
    else t :: starred place (u :: ts)

theorem head?_starred (place : List Placed → Nat) (tokens : List Placed) :
    (starred place tokens).head? = tokens.head? := by
  unfold starred
  split
  · rfl
  · rfl
  · split <;> rfl

end Token

namespace Automaton

variable {schema : Schema} {s s' : State} {k : Context} {budget : Nat} {e : Expr} {t u : Token}
  {offset : Nat}

/-- Where the sign of a product may be left out next, the reader is behind a primary. -/
theorem focus_of_step (hj : Grammar.Juxtaposed t u) (h : step schema s ⟨t, offset⟩ = .ok s') :
    ∃ a, s'.focus = .value a (some t) := by
  have hafter : s'.focus.After (some t) := after_of_step h
  have hends : t.endsOperand = true := by cases hj <;> rfl
  cases hfocus : s'.focus with
  | value a last =>
      rw [hfocus] at hafter
      obtain ⟨rfl, -⟩ := hafter
      exact ⟨a, rfl⟩
  | operand =>
      rw [hfocus] at hafter
      exact absurd (hends.symm.trans hafter) nofun
  | name text at' =>
      rw [hfocus] at hafter
      cases hafter
      cases hj
  | opened f =>
      rw [hfocus] at hafter
      cases hafter
      cases hj

/-- There a star is as good as no star. -/
theorem run_star (hj : Grammar.Juxtaposed t u) (place : Nat) (rest : List Placed) :
    run schema ⟨.value e (some t), k, budget⟩ (⟨.star, place⟩ :: ⟨u, offset⟩ :: rest) =
      run schema ⟨.value e (some t), k, budget⟩ (⟨u, offset⟩ :: rest) := by
  let c : Cursor := ⟨some t, ⟨u, offset⟩ :: rest, budget⟩
  let d : Cursor := ⟨some .star, ⟨u, offset⟩ :: rest, budget⟩
  have hstar :
      Cursor.productOperator? ⟨some t, ⟨.star, place⟩ :: c.rest, budget⟩ = some (.mul, d) := rfl
  have himplied : c.productOperator? = some (.mul, c) := by cases hj <;> rfl
  calc run schema ⟨.value e (some t), k, budget⟩ (⟨.star, place⟩ :: c.rest)
      = d.count >>= operandAt schema (k.multiply .mul e) := valueAt_product hstar
    _ = c.count >>= operandAt schema (k.multiply .mul e) := by
        rw [count_bind, count_bind]
        rfl
    _ = run schema ⟨.value e (some t), k, budget⟩ c.rest := (valueAt_product himplied).symm

/-! ### Runs -/

theorem run_starred (place : List Placed → Nat) (s : State) (tokens : List Placed) :
    run schema s (Token.starred place tokens) = run schema s tokens := by
  induction tokens generalizing s with
  | nil => rfl
  | cons t tokens ih =>
      cases tokens with
      | nil => rfl
      | cons u tokens =>
          rw [Token.starred]
          split
          · rename_i hj
            refine bind_congr_of_ok fun s' hstep => ?_
            obtain ⟨focus, k, budget⟩ := s'
            obtain ⟨a, hfocus⟩ := focus_of_step hj hstep
            cases hfocus
            -- the star is read first, and the rest by the hypothesis of induction
            refine Eq.trans ?_ (run_star hj (place (u :: tokens)) tokens)
            exact bind_congr fun s => ih s
          · exact bind_congr fun s => ih s

end Automaton

namespace Expr

/-- **A product without a sign is a product**: whether the signs are left out or written, the same
tree is read, or the same error found at the same token. -/
theorem ofTokens_starred (schema : Schema) (place : List Placed → Nat) (tokens : List Placed) :
    ofTokens schema (Token.starred place tokens) = ofTokens schema tokens := by
  cases tokens with
  | nil => rfl
  | cons t tokens =>
      have hne : Token.starred place (t :: tokens) ≠ [] := by
        intro hnil
        have hhead := Token.head?_starred place (t :: tokens)
        rw [hnil] at hhead
        cases hhead
      rw [ofTokens_eq_run schema hne, ofTokens_eq_run schema (List.cons_ne_nil t tokens)]
      exact Automaton.run_starred place Automaton.start (t :: tokens)

end Expr

end PenFilter
