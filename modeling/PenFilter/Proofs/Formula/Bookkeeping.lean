import PenFilter.Proofs.Formula.Following

/-! # What a reader keeps up

A reader that follows a parser keeps its books: it comes to an end, and where it succeeds it has
passed over a token, has left every level that it has entered, and has counted every sign, operator
and call of what it has read (`Tally.KeepsBooks`).  The place and the depth come from the readers,
the count from the budget of the parser, and the trees from the grammar
(`Tally.Follows.keepsBooks`).  `Tally.reading_keeps_books` says it of every phrase, and that a text
is read to the same end with a tally as with limits. -/

namespace PenFilter

namespace Tally

variable {schema : Schema} {tokens : List Placed} {b : Tally} {k n : Nat} {α : Type}

/-! ### Books -/

/-- What is on the books at `b'` after the trees `es` have been read from `b` on. -/
structure Kept (schema : Schema) (tokens : List Placed) (b b' : Tally) (es : List Expr) :
    Prop where
  position_lt : b.position < b'.position
  position_le : b'.position ≤ tokens.length
  depth_eq : b'.depth = b.depth
  operations_eq : b'.operations = b.operations + Expr.operationsAll es
  operations_le : b'.operations ≤ maxOperations
  wellFormed : ∀ e ∈ es, e.WellFormed schema

/-- A reader comes to an end from `b` on, and to the same as a parser from the cursor there.  With a
success the books are kept for the trees that have been read; with an error no level is missing. -/
inductive KeepsBooks (schema : Schema) (tokens : List Placed) (b : Tally) (trees : α → List Expr)
    (p : Reader α) (q : Parser α) : Prop
  | succeeds {a : α} {b' : Tally} (hp : p b = some (.ok a, b'))
    (hq : q (b.cursor tokens) = .ok (a, b'.cursor tokens))
    (kept : Kept schema tokens b b' (trees a))
  | fails {e : ParseError} {b' : Tally} (hp : p b = some (.error e, b'))
    (hq : q (b.cursor tokens) = .error e) (depth_le : b.depth ≤ b'.depth)

/-- A parser takes from the budget what the trees that it reads have in signs, operators and calls,
and the trees are well-formed. -/
def Accounts (schema : Schema) (trees : α → List Expr) (q : Parser α) : Prop :=
  ∀ ⦃c a d⦄, q c = .ok (a, d) → c.budget = d.budget + Expr.operationsAll (trees a) ∧
    ∀ e ∈ trees a, e.WellFormed schema

theorem Follows.keepsBooks {trees : α → List Expr} {p : Reader α} {q : Parser α}
    (h : Follows tokens k n p q) (hb : b.Within tokens n) (hk : tokens.length < b.position + k)
    (hq : Accounts schema trees q) : KeepsBooks schema tokens b trees p q := by
  have hdepth := hb.depth_eq
  have hoperations := hb.operations_le
  have hmatches := h hb hk
  generalize hp : p b = r at hmatches
  generalize hx : q (b.cursor tokens) = x at hmatches
  cases hmatches with
  | @ok a b' within le =>
      obtain ⟨hbudget, hwell⟩ := hq hx
      have hdepth' := within.depth_eq
      have hoperations' := within.operations_le
      refine .succeeds hp hx ⟨le, within.position_le, by omega, ?_, hoperations', hwell⟩
      simp only [cursor] at hbudget
      omega
  | error le => exact .fails hp hx (by omega)

/-! ### Accounts of the parser -/

theorem accounts_of_sound {R : Nat → List Token → Expr → Prop} {q : Parser Expr}
    (h : Sound n R Expr.operations q) (hR : ∀ {m ts e}, R m ts e → e.WellFormed schema) :
    Accounts schema ([·]) q := by
  intro c e d he
  obtain ⟨m, ts, -, hderived, hreach⟩ := h he
  refine ⟨by simpa [Expr.operationsAll] using hreach.budget, ?_⟩
  rw [List.forall_mem_singleton]
  exact hR hderived

theorem accounts_arguments (schema : Schema) (n : Nat) :
    Accounts schema id (Expr.arguments schema n) := by
  intro c args d h
  by_cases hne : args = []
  · -- the grammar derives no empty list
    subst hne
    exact ⟨Expr.budget_of_arguments_nil h, nofun⟩
  · obtain ⟨m, ts, -, hderived, hreach⟩ := (Expr.signed_sound schema n).2 h hne
    obtain ⟨hsat, hres⟩ := hderived.wellFormed
    exact ⟨hreach.budget, Expr.wellFormed_of_all hsat hres⟩

/-! ### The whole text -/

theorem ofTokens_eq (schema : Schema) (h : tokens.length < k) :
    ofTokens schema tokens k = some (Expr.ofTokens schema tokens) := by
  unfold ofTokens whole Expr.ofTokens
  split
  · rfl
  · have hstart : ({} : Tally).Within tokens maxDepth :=
      ⟨Nat.zero_le _, Nat.zero_add _, Nat.zero_le _⟩
    have hmatches := (follows_signed schema tokens k maxDepth).sum hstart (by simpa using h)
    have hcursor : ({} : Tally).cursor tokens = .ofTokens tokens := rfl
    rw [hcursor] at hmatches
    generalize hp : sum tokens k (signed schema tokens k) {} = r at hmatches
    generalize Expr.sum (Expr.signed schema maxDepth) (.ofTokens tokens) = x at hmatches
    cases hmatches with
    | @ok e b' within le =>
        rw [bind_of_ok hp, get_bind]
        show _ = some (if (b'.cursor tokens).rest.isEmpty then Except.ok e
          else .error ((b'.cursor tokens).unexpected .operatorOrEnd))
        rw [Cursor.unexpected]
        cases hnext : b'.next? tokens with
        | none =>
            rw [rest_of_next?_eq_none hnext]
            rfl
        | some t =>
            rw [(rest_of_next?_eq_some hnext).2]
            rfl
    | error le =>
        rw [bind_of_error hp]
        rfl

/-! ### Every phrase -/

/-- **Reading keeps the books.**  From every place in every list of tokens, with any depth and any
number of operators and calls within the limits, each phrase is read to an end: `k` bounds nothing
where it exceeds the number of tokens left, and no level is left that is not open.  A success is
further on in the tokens and on the same depth, it has counted the signs, operators and calls of
what has been read and nothing else, and all calls are saturated and all variables resolved.  A list
of tokens as a whole is read to the same end as by the parser. -/
theorem reading_keeps_books (schema : Schema) (tokens : List Placed) {b : Tally} {k : Nat}
    (hposition : b.position ≤ tokens.length) (hdepth : b.depth ≤ maxDepth)
    (hoperations : b.operations ≤ maxOperations) (hk : tokens.length < b.position + k) :
    let operand := signed schema tokens k
    let args := arguments tokens k (sum tokens k operand)
    let base := primary schema tokens (sum tokens k operand) args
    let operand' := Expr.signed schema (maxDepth - b.depth)
    let args' := Expr.arguments schema (maxDepth - b.depth)
    let base' := Expr.primary schema (Expr.sum operand') args'
    KeepsBooks schema tokens b ([·]) (sum tokens k operand) (Expr.sum operand') ∧
      KeepsBooks schema tokens b ([·]) (product tokens k operand) (Expr.product operand') ∧
      KeepsBooks schema tokens b ([·]) operand operand' ∧
      KeepsBooks schema tokens b ([·]) (power tokens base operand) (Expr.power base' operand') ∧
      KeepsBooks schema tokens b ([·]) base base' ∧
      KeepsBooks schema tokens b id args args' ∧
      ∀ m, tokens.length < m → ofTokens schema tokens m = some (Expr.ofTokens schema tokens) := by
  intro operand args base operand' args' base'
  have hb : b.Within tokens (maxDepth - b.depth) :=
    ⟨hposition, Nat.add_sub_cancel' hdepth, hoperations⟩
  have hk' : tokens.length < b.position + (k + 1) := by omega
  obtain ⟨hsound, hsoundArgs⟩ := Expr.signed_sound schema (maxDepth - b.depth)
  have hsoundBase := Expr.primary_sound (Expr.sum_sound hsound) hsoundArgs
  have hoperand : Follows tokens k _ operand operand' := follows_signed schema tokens k _
  have hargs : Follows tokens k _ args args' :=
    follows_arguments (fun n => (follows_signed schema tokens k n).sum) _
  have hbase : Follows tokens (k + 1) _ base base' := follows_primary schema hoperand.sum hargs
  have hpower := follows_power hbase hoperand
  refine ⟨?_, ?_, ?_, ?_, ?_, ?_, fun m hm => ofTokens_eq schema hm⟩
  · exact hoperand.sum.keepsBooks hb hk
      (accounts_of_sound (Expr.sum_sound hsound) Grammar.Sum.wellFormed)
  · exact hoperand.product.keepsBooks hb hk
      (accounts_of_sound (Expr.product_sound hsound) Grammar.Product.wellFormed)
  · exact hoperand.keepsBooks hb hk (accounts_of_sound hsound Grammar.Signed.wellFormed)
  · exact hpower.keepsBooks hb hk'
      (accounts_of_sound (Expr.power_sound hsoundBase hsound) Grammar.Power.wellFormed)
  · exact hbase.keepsBooks hb hk' (accounts_of_sound hsoundBase Grammar.Primary.wellFormed)
  · exact hargs.keepsBooks hb hk (accounts_arguments schema _)

/-- The theorem behind an opening parenthesis, where five levels are left: `- x ^ abs(x)` takes all
of them, leaves them again and counts three operators and calls. -/
theorem reading_keeps_books_behind_a_parenthesis :
    let schema := Schema.ofList ["x"]
    let tokens : List Placed := [⟨.opening, 0⟩, ⟨.minus, 1⟩, ⟨.name "x", 2⟩, ⟨.caret, 3⟩,
      ⟨.name "abs", 4⟩, ⟨.opening, 7⟩, ⟨.name "x", 8⟩, ⟨.closing, 9⟩, ⟨.closing, 10⟩]
    let b : Tally := ⟨1, 59, 1000⟩
    b.position ≤ tokens.length ∧ b.depth ≤ maxDepth ∧ b.operations ≤ maxOperations ∧
      tokens.length < b.position + 9 ∧
      ∃ e, sum tokens 9 (signed schema tokens 9) b = some (.ok e, ⟨8, 59, 1003⟩) ∧
        Kept schema tokens b ⟨8, 59, 1003⟩ [e] := by
  intro schema tokens b
  have hposition : b.position ≤ tokens.length := by decide
  have hdepth : b.depth ≤ maxDepth := by decide
  have hoperations : b.operations ≤ maxOperations := by decide
  have hk : tokens.length < b.position + 9 := by decide
  refine ⟨hposition, hdepth, hoperations, hk, ?_⟩
  have hrun : sum tokens 9 (signed schema tokens 9) b =
      some (.ok (.neg (.binary .pow (.var "x" 0) (.call .abs [.var "x" 0]))), ⟨8, 59, 1003⟩) := by
    rfl
  obtain ⟨hsum, -⟩ := reading_keeps_books schema tokens hposition hdepth hoperations hk
  cases hsum with
  | succeeds hp _ kept =>
      rw [hrun] at hp
      cases hp
      exact ⟨_, hrun, kept⟩
  | fails hp _ _ =>
      rw [hrun] at hp
      cases hp

end Tally

end PenFilter
