import PenFilter.Proofs.Formula.Automaton

/-! # The machine reads what the parser reads

Each part of the parser is a piece of a run of the machine: where the machine is before an operand,
it comes to where it is after the operand that the parser reads, with the same budget and the same
tokens left, or fails with the parser's error (`Automaton.operandAt_signed`).  The number of levels
that the parser has left and the depth of the machine's context add up to the limit.

A loop of the parser stops when no operator follows (`Expr.product_stops`, `Expr.sum_stops`).  There
the machine still holds the left operands, and joins them with the next token.

* `Expr.ofTokens_eq_run`: parser and machine agree on every list of tokens. -/

namespace PenFilter

/-- Neither an exponent nor a further operand of a product follows. -/
structure Cursor.EndsProduct (c : Cursor) : Prop where
  no_exponent : c.peek? ≠ some .caret
  no_factor : c.productOperator? = none

/-- Nor a further operand of a sum. -/
structure Cursor.EndsSum (c : Cursor) : Prop extends Cursor.EndsProduct c where
  no_term : c.sumOperator? = none

/-- What may follow where a sum ends, as far as operators go. -/
theorem Cursor.EndsSum.cases {c : Cursor} (h : c.EndsSum) :
    c.rest = [] ∨ c.peek? = some .closing ∨ c.peek? = some .comma ∨
      ∃ t, c.peek? = some t ∧ Grammar.BeginsPrimary t := by
  obtain ⟨⟨hcaret, hproduct⟩, hsum⟩ := h
  obtain ⟨previous, rest, budget⟩ := c
  cases rest with
  | nil => exact .inl rfl
  | cons t rest =>
      obtain ⟨token, offset⟩ := t
      right
      cases token with
      | caret => exact absurd rfl hcaret
      | star | slash => cases hproduct
      | plus | minus => cases hsum
      | closing => exact .inl rfl
      | comma => exact .inr (.inl rfl)
      | number value | name text | opening => exact .inr (.inr ⟨_, rfl, trivial⟩)

namespace Expr

variable {schema : Schema} {n : Nat} {c d : Cursor} {e : Expr}

/-! ### Where the parser stops -/

theorem Sound.length_lt {α : Type} {R : Nat → List Token → α → Prop} {size : α → Nat}
    {p : Parser α} {a : α} (hp : Sound n R size p) (hR : ∀ {m ts a}, R m ts a → ts ≠ [])
    (h : p c = .ok (a, d)) : d.rest.length < c.rest.length := by
  obtain ⟨m, ts, -, hderived, hreach⟩ := hp h
  have hlength := hreach.length_eq
  have hpos := List.length_pos_iff.mpr (hR hderived)
  omega

theorem signed_length_lt (h : signed schema n c = .ok (e, d)) : d.rest.length < c.rest.length :=
  Sound.length_lt (signed_sound schema n).1 Grammar.Signed.ne_nil h

theorem product_length_lt (h : product (signed schema n) c = .ok (e, d)) :
    d.rest.length < c.rest.length :=
  Sound.length_lt (product_sound (signed_sound schema n).1) Grammar.Product.ne_nil h

theorem sum_length_lt (h : sum (signed schema n) c = .ok (e, d)) :
    d.rest.length < c.rest.length :=
  Sound.length_lt (sum_sound (signed_sound schema n).1) Grammar.Sum.ne_nil h

/-- A power takes all exponents that follow. -/
theorem signed_stops : ∀ {n : Nat} {c d : Cursor} {e : Expr},
    signed schema n c = .ok (e, d) → d.peek? ≠ some .caret
  | 0, _, _, _, h => by cases h
  | n + 1, c, d, e, h => by
      unfold signed at h
      split at h
      · obtain ⟨c₁, -, h⟩ := bind_eq_ok_iff.mp h
        obtain ⟨⟨a, c₂⟩, ha, h⟩ := bind_eq_ok_iff.mp h
        cases h
        exact signed_stops ha
      · exact signed_stops h
      · obtain ⟨⟨base, c₁⟩, -, h⟩ := bind_eq_ok_iff.mp h
        simp only at h
        split at h
        · obtain ⟨c₂, -, h⟩ := bind_eq_ok_iff.mp h
          obtain ⟨⟨exponent, c₃⟩, hexponent, h⟩ := bind_eq_ok_iff.mp h
          cases h
          exact signed_stops hexponent
        · rename_i hcaret
          cases h
          exact hcaret

/-- A chain ends where no operator follows, and like its last operand. -/
theorem chain_stops {operator? : Cursor → Option (Operator × Cursor)} {operand : Parser Expr}
    {Q : Cursor → Prop}
    (hoperator : ∀ {c op d}, operator? c = some (op, d) → c.rest ≠ [] ∧
      d.rest.length ≤ c.rest.length)
    (hoperand : ∀ {c e d}, operand c = .ok (e, d) → Q d ∧ d.rest.length < c.rest.length)
    (h : chain operator? operand c = .ok (e, d)) : Q d ∧ operator? d = none := by
  have htail : ∀ (k : Nat) {c d : Cursor} {lhs e : Expr}, c.rest.length ≤ k → Q c →
      chainTail operator? operand k lhs c = .ok (e, d) → Q d ∧ operator? d = none := by
    intro k
    induction k with
    | zero =>
        intro c d lhs e hk hQ h
        cases h
        refine ⟨hQ, ?_⟩
        cases hop : operator? c with
        | none => rfl
        | some p => exact absurd (List.length_eq_zero_iff.mp (Nat.le_zero.mp hk)) (hoperator hop).1
    | succ k ih =>
        intro c d lhs e hk hQ h
        unfold chainTail at h
        split at h
        · rename_i hnone
          cases h
          exact ⟨hQ, hnone⟩
        · rename_i op c₁ hop
          obtain ⟨c₂, hcount, h⟩ := bind_eq_ok_iff.mp h
          obtain ⟨⟨rhs, c₃⟩, hrhs, h⟩ := bind_eq_ok_iff.mp h
          obtain ⟨hQ₃, hlt⟩ := hoperand hrhs
          have hle := (hoperator hop).2
          have hsame := (Cursor.reaches_count hcount).length_eq
          rw [List.length_nil, Nat.zero_add] at hsame
          exact ih (by omega) hQ₃ h
  obtain ⟨⟨lhs, c₁⟩, hlhs, h⟩ := bind_eq_ok_iff.mp h
  exact htail _ (Nat.le_refl _) (hoperand hlhs).1 h

theorem product_stops (h : product (signed schema n) c = .ok (e, d)) : d.EndsProduct := by
  have hstop := chain_stops (Q := fun d => d.peek? ≠ some .caret) ?_
    (fun h => ⟨signed_stops h, signed_length_lt h⟩) h
  · exact ⟨hstop.1, hstop.2⟩
  · intro c op d hop
    rcases Cursor.productOperator?_eq_some hop with
      ⟨hp, -, rfl⟩ | ⟨hp, -, rfl⟩ | ⟨⟨t, u, -, hp, -⟩, -, rfl⟩
    all_goals obtain ⟨offset, rest, hrest⟩ := Cursor.rest_of_peek? hp
    · simp [Cursor.advance, hrest]
    · simp [Cursor.advance, hrest]
    · simp [hrest]

theorem sum_stops (h : sum (signed schema n) c = .ok (e, d)) : d.EndsSum := by
  have hstop := chain_stops (Q := Cursor.EndsProduct) ?_
    (fun h => ⟨product_stops h, product_length_lt h⟩) h
  · exact ⟨hstop.1, hstop.2⟩
  · intro c op d hop
    rcases Cursor.sumOperator?_eq_some hop with ⟨hp, -, rfl⟩ | ⟨hp, -, rfl⟩ <;>
    · obtain ⟨offset, rest, hrest⟩ := Cursor.rest_of_peek? hp
      simp [Cursor.advance, hrest]

end Expr

namespace Automaton

open PenFilter.Expr

variable {schema : Schema} {n : Nat}

/-! ### Depths -/

theorem depth_front (k : Context) (f : Front) : (k.front f).depth = k.depth + 1 := by
  simp only [Context.depth, Context.front, List.length_cons]
  omega

theorem depth_enclose (k : Context) (b : Bracket) : (k.enclose b).depth = k.depth + b.depth := by
  simp only [Context.depth, Context.enclose, List.length_nil, List.map_cons, List.sum_cons]
  omega

/-! ### Chains -/

/-- The loop of a chain is a piece of any reader that goes on in the same way after an operator. -/
theorem chainTail_bind {operator? : Cursor → Option (Operator × Cursor)} {operand : Parser Expr}
    (next : Expr → Cursor → Except ParseError Expr)
    (hnext : ∀ {lhs c op d}, operator? c = some (op, d) →
      next lhs c = d.count >>= fun d => operand d >>= fun (rhs, d) => next (.binary op lhs rhs) d)
    (k : Nat) (lhs : Expr) (c : Cursor) :
    (chainTail operator? operand k lhs c >>= fun (e, d) => next e d) = next lhs c := by
  induction k generalizing lhs c with
  | zero => rfl
  | succ k ih =>
      unfold chainTail
      cases hop : operator? c with
      | none => rfl
      | some p =>
          obtain ⟨op, d⟩ := p
          rw [hnext hop]
          simp only [bind_assoc]
          refine bind_congr fun d => bind_congr fun p => ?_
          exact ih (.binary op lhs p.1) p.2

/-- With `n` levels left, the machine reads a signed operand as the parser does. -/
def SignedAt (schema : Schema) (n : Nat) : Prop :=
  ∀ (k : Context) (c : Cursor), k.depth + n = maxDepth →
    operandAt schema k c = signed schema n c >>= fun (e, d) => valueAt schema k e d

theorem SignedAt.product (h : SignedAt schema n) {term : Option (Operator × Expr)}
    {outer : List (Bracket × Level)} (hdepth : Context.depth ⟨{ term }, outer⟩ + n = maxDepth)
    (c : Cursor) :
    operandAt schema ⟨{ term }, outer⟩ c =
      product (signed schema n) c >>= fun (e, d) => valueAt schema ⟨{ term }, outer⟩ e d := by
  rw [h _ c hdepth, Expr.product, chain, bind_assoc]
  refine bind_congr fun ⟨lhs, c⟩ =>
    (chainTail_bind (valueAt schema ⟨{ term }, outer⟩) ?_ _ lhs c).symm
  intro lhs c op d hop
  rw [valueAt_product hop]
  refine bind_congr fun d => ?_
  rw [h (Context.multiply ⟨{ term }, outer⟩ op lhs) d hdepth]
  exact bind_congr_of_ok fun p hp => valueAt_multiply (signed_stops hp)

theorem SignedAt.sum (h : SignedAt schema n) {outer : List (Bracket × Level)}
    (hdepth : Context.depth ⟨{}, outer⟩ + n = maxDepth) (c : Cursor) :
    operandAt schema ⟨{}, outer⟩ c =
      sum (signed schema n) c >>= fun (e, d) => valueAt schema ⟨{}, outer⟩ e d := by
  rw [h.product hdepth c, Expr.sum, chain, bind_assoc]
  refine bind_congr fun ⟨lhs, c⟩ => (chainTail_bind (valueAt schema ⟨{}, outer⟩) ?_ _ lhs c).symm
  intro lhs c op d hop
  rw [valueAt_sum hop]
  refine bind_congr fun d => ?_
  refine (@SignedAt.product _ _ h (some (op, lhs)) outer hdepth d).trans ?_
  refine bind_congr_of_ok fun p hp => ?_
  have hends := product_stops hp
  exact valueAt_add hends.no_exponent hends.no_factor

/-! ### Parentheses -/

section

variable {k : Context} {e : Expr} {d : Cursor}

theorem valueAt_group (hends : d.EndsSum) :
    valueAt schema (k.enclose .group) e d =
      if d.peek? = some .closing then valueAt schema k e d.advance
      else .error (d.unexpected .closing) := by
  rcases hends.cases with hrest | hclosing | hcomma | ⟨t, ht, hbegins⟩
  · rw [valueAt, Cursor.peek?, Cursor.unexpected, hrest]
    rfl
  · obtain ⟨offset, rest, hrest⟩ := Cursor.rest_of_peek? hclosing
    rw [if_pos hclosing, valueAt, Cursor.advance, hrest]
    rfl
  · obtain ⟨offset, rest, hrest⟩ := Cursor.rest_of_peek? hcomma
    rw [hcomma, valueAt, Cursor.unexpected, hrest]
    rfl
  · rw [valueAt_of_beginsPrimary ht hbegins hends.no_factor, if_neg]
    · rfl
    · rw [ht]
      rintro ⟨⟩
      exact hbegins

/-- What becomes of the tokens after a call. -/
def calledAt (schema : Schema) (k : Context) (f : Builtin) (args : List Expr) (c : Cursor) :
    Except ParseError Expr :=
  if args.length = f.arity then valueAt schema k (.call f args) c
  else .error (.wrongArity f args.length)

theorem valueAt_call {f : Builtin} {args : List Expr} (hends : d.EndsSum) :
    valueAt schema (k.enclose (.call f args)) e d =
      match d.peek? with
      | some .closing => calledAt schema k f (args ++ [e]) d.advance
      | some .comma => operandAt schema (k.enclose (.call f (args ++ [e]))) d.advance
      | _ => .error (d.unexpected .commaOrClosing) := by
  rcases hends.cases with hrest | hclosing | hcomma | ⟨t, ht, hbegins⟩
  · rw [valueAt, Cursor.peek?, Cursor.unexpected, hrest]
    rfl
  · obtain ⟨offset, rest, hrest⟩ := Cursor.rest_of_peek? hclosing
    rw [hclosing, valueAt, Cursor.advance, hrest]
    show (if (args ++ [e]).length = f.arity then _ else _) >>= _ =
      calledAt schema k f (args ++ [e]) _
    unfold calledAt
    split <;> rfl
  · obtain ⟨offset, rest, hrest⟩ := Cursor.rest_of_peek? hcomma
    rw [hcomma, valueAt, Cursor.advance, hrest]
    rfl
  · rw [valueAt_of_beginsPrimary ht hbegins hends.no_factor, ht]
    cases t <;> first | exact hbegins.elim | rfl

theorem argumentsTail_bind (hsigned : SignedAt schema n) {f : Builtin}
    (hdepth : k.depth + 2 + n = maxDepth) (rounds : Nat) {args : List Expr} {e : Expr} {d : Cursor}
    (hends : d.EndsSum) (hrounds : d.rest.length ≤ rounds) :
    (argumentsTail (sum (signed schema n)) rounds (args ++ [e]) d >>= fun (args, d) =>
      calledAt schema k f args d) = valueAt schema (k.enclose (.call f args)) e d := by
  induction rounds generalizing args e d with
  | zero =>
      have hnothing : d.peek? = none := by
        rw [Cursor.peek?, List.length_eq_zero_iff.mp (Nat.le_zero.mp hrounds)]
        rfl
      rw [valueAt_call hends, hnothing]
      rfl
  | succ rounds ih =>
      rw [valueAt_call hends]
      unfold argumentsTail
      rcases hends.cases with hrest | hclosing | hcomma | ⟨t, ht, hbegins⟩
      · have hnothing : d.peek? = none := by rw [Cursor.peek?, hrest]; rfl
        rw [hnothing]
        rfl
      · rw [hclosing]
        rfl
      · obtain ⟨offset, rest, hrest⟩ := Cursor.rest_of_peek? hcomma
        have hlength : d.advance.rest.length + 1 = d.rest.length := by
          rw [Cursor.advance, hrest, List.length_cons]
        have hdepth' : Context.depth (k.enclose (.call f (args ++ [e]))) + n = maxDepth := by
          rw [depth_enclose]
          exact hdepth
        rw [hcomma]
        simp only [bind_assoc]
        refine Eq.trans ?_ (hsigned.sum hdepth' d.advance).symm
        refine bind_congr_of_ok fun p hp => ?_
        have hlt := sum_length_lt hp
        exact ih (sum_stops hp) (by omega)
      · rw [ht]
        cases t <;> first | exact hbegins.elim | rfl

/-- With `n` levels left, the machine reads the arguments of a call as the parser does. -/
def ArgumentsAt (schema : Schema) (n : Nat) : Prop :=
  ∀ (k : Context) (f : Builtin) (c : Cursor), k.depth + 1 + n = maxDepth →
    openedAt schema k f c =
      arguments schema n c >>= fun (args, d) => calledAt schema k f args d

theorem SignedAt.arguments (h : SignedAt schema n) : ArgumentsAt schema (n + 1) := by
  intro k f c hdepth
  have hlow : k.depth + 1 < maxDepth := by omega
  rw [openedAt, if_pos hlow, Expr.arguments, argumentList]
  by_cases hclosing : c.peek? = some .closing
  · obtain ⟨offset, rest, hrest⟩ := Cursor.rest_of_peek? hclosing
    have harity : ([] : List Expr).length ≠ f.arity := Nat.ne_of_lt f.arity_pos
    rw [hrest, hclosing]
    exact (if_neg harity).symm
  · have hdepth' : Context.depth (k.enclose (.call f [])) + n = maxDepth := by
      rw [depth_enclose]
      simp only [Bracket.depth]
      omega
    have hfirst : run schema ⟨.opened f, k, c.budget⟩ c.rest =
        operandAt schema (k.enclose (.call f [])) c := by
      obtain ⟨previous, rest, budget⟩ := c
      cases rest with
      | nil =>
          show (expect (k.enclose (.call f [])) budget >>= fun _ => _) = _
          unfold operandAt expect
          split <;> rfl
      | cons t rest =>
          have ht : t.token ≠ .closing := fun ht => hclosing (congrArg some ht)
          show firstArgument k budget f t >>= (fun s => run schema s rest) = _
          rw [firstArgument, if_neg ht]
          exact expectHere_bind_run _ budget t rest previous
    rw [hfirst]
    refine (h.sum hdepth' c).trans ?_
    split
    · contradiction
    · rw [bind_assoc]
      refine bind_congr_of_ok fun p hp => ?_
      exact (argumentsTail_bind h (by omega) _ (sum_stops hp) (Nat.le_refl _)).symm

end

/-! ### Operands -/

section

variable {k : Context} {c : Cursor}

theorem operandAt_primary (hsigned : SignedAt schema n) (harguments : ArgumentsAt schema n)
    (hdepth : k.depth + (n + 1) = maxDepth) (hplus : c.peek? ≠ some .plus)
    (hminus : c.peek? ≠ some .minus) :
    operandAt schema k c =
      primary schema (sum (signed schema n)) (Expr.arguments schema n) c >>= fun (e, d) =>
        valueAt schema k e d := by
  have hlow : k.depth < maxDepth := by omega
  unfold primary
  split
  · rename_i value offset rest hrest
    exact operandAt_number hlow (by rw [Cursor.peek?, hrest]; rfl)
  · rename_i offset rest hrest
    have hdepth' : Context.depth (k.enclose .group) + n = maxDepth := by
      rw [depth_enclose]
      simp only [Bracket.depth]
      omega
    rw [operandAt_opening hlow (by rw [Cursor.peek?, hrest]; rfl), bind_assoc]
    refine (hsigned.sum hdepth' c.advance).trans ?_
    refine bind_congr_of_ok fun p hp => ?_
    refine (valueAt_group (sum_stops hp)).trans ?_
    simp only
    split <;> rfl
  · rename_i text offset rest hrest
    split
    · rename_i hopening
      rw [operandAt_call hlow hrest hopening, ofCall]
      cases Builtin.ofName? text with
      | none => rfl
      | some f =>
          simp only [bind_assoc]
          refine bind_congr fun d => ?_
          rw [harguments k f d (by omega)]
          refine bind_congr fun p => ?_
          simp only [calledAt]
          split <;> rfl
    · rename_i hopening
      rw [operandAt_name hlow hrest hopening]
      cases Expr.ofName schema text offset <;> rfl
  · rename_i hnumber hgroup hname
    refine operandAt_of_not_begins hlow ?_
    intro t ht
    obtain ⟨offset, rest, hrest⟩ := Cursor.rest_of_peek? ht
    cases t with
    | number value => exact absurd hrest (hnumber value offset rest)
    | name text => exact absurd hrest (hname text offset rest)
    | opening => exact absurd hrest (hgroup offset rest)
    | plus => exact absurd ht hplus
    | minus => exact absurd ht hminus
    | star | slash | caret | closing | comma => rintro (h | h | h) <;> cases h

theorem operandAt_power (hsigned : SignedAt schema n) (harguments : ArgumentsAt schema n)
    (hdepth : k.depth + (n + 1) = maxDepth) (hplus : c.peek? ≠ some .plus)
    (hminus : c.peek? ≠ some .minus) :
    operandAt schema k c =
      power (primary schema (sum (signed schema n)) (Expr.arguments schema n)) (signed schema n) c
        >>= fun (e, d) => valueAt schema k e d := by
  rw [operandAt_primary hsigned harguments hdepth hplus hminus, power, bind_assoc]
  refine bind_congr fun p => ?_
  obtain ⟨base, d⟩ := p
  simp only
  split
  · rename_i hcaret
    rw [valueAt_caret hcaret, bind_assoc]
    refine bind_congr fun d => ?_
    rw [hsigned _ d (by rw [depth_front]; omega), bind_assoc]
    exact bind_congr_of_ok fun p hp => valueAt_front _ (signed_stops hp)
  · rfl

/-- The machine reads operands and argument lists as the parser does, at every level. -/
theorem operandAt_signed (schema : Schema) : ∀ n : Nat, SignedAt schema n ∧ ArgumentsAt schema n
  | 0 => by
      refine ⟨fun k c hdepth => ?_, fun k f c hdepth => ?_⟩
      · have hfull : ¬ k.depth < maxDepth := by omega
        rw [operandAt, expect, if_neg hfull]
        rfl
      · have hfull : ¬ k.depth + 1 < maxDepth := by omega
        rw [openedAt, if_neg hfull]
        rfl
  | n + 1 => by
      obtain ⟨hsigned, harguments⟩ := operandAt_signed schema n
      refine ⟨fun k c hdepth => ?_, hsigned.arguments⟩
      have hlow : k.depth < maxDepth := by omega
      unfold signed
      split
      · rename_i hminus
        rw [operandAt_minus hlow hminus, bind_assoc]
        refine bind_congr fun d => ?_
        rw [hsigned _ d (by rw [depth_front]; omega), bind_assoc]
        exact bind_congr_of_ok fun p hp => valueAt_front .minus (signed_stops hp)
      · rename_i hplus
        rw [operandAt_plus hlow hplus, hsigned _ c.advance (by rw [depth_front]; omega)]
        exact bind_congr_of_ok fun p hp => valueAt_front .plus (signed_stops hp)
      · rename_i hminus hplus
        exact operandAt_power hsigned harguments hdepth hplus hminus

/-! ### Whole lists of tokens -/

theorem valueAt_start {e : Expr} {d : Cursor} (hends : d.EndsSum) :
    valueAt schema {} e d =
      if d.rest.isEmpty then .ok e else .error (d.unexpected .operatorOrEnd) := by
  rcases hends.cases with hrest | hclosing | hcomma | ⟨t, ht, hbegins⟩
  · rw [valueAt, hrest]
    rfl
  · obtain ⟨offset, rest, hrest⟩ := Cursor.rest_of_peek? hclosing
    rw [valueAt, Cursor.unexpected, hrest]
    rfl
  · obtain ⟨offset, rest, hrest⟩ := Cursor.rest_of_peek? hcomma
    rw [valueAt, Cursor.unexpected, hrest]
    rfl
  · obtain ⟨offset, rest, hrest⟩ := Cursor.rest_of_peek? ht
    rw [valueAt_of_beginsPrimary ht hbegins hends.no_factor, hrest]
    rfl

end

end Automaton

namespace Expr

/-- **The machine is the parser**: it builds the same trees and fails with the same errors. -/
theorem ofTokens_eq_run (schema : Schema) {tokens : List Placed} (hne : tokens ≠ []) :
    ofTokens schema tokens = Automaton.run schema Automaton.start tokens := by
  have hempty : ¬ tokens.isEmpty := by simpa using hne
  have hrun : Automaton.run schema Automaton.start tokens =
      Automaton.operandAt schema {} (.ofTokens tokens) := rfl
  have hdepth : Automaton.Context.depth ⟨{}, []⟩ + maxDepth = maxDepth := Nat.zero_add maxDepth
  have hsum := (Automaton.operandAt_signed schema maxDepth).1.sum hdepth (.ofTokens tokens)
  rw [hrun, ofTokens, if_neg hempty]
  refine Eq.trans ?_ hsum.symm
  refine bind_congr_of_ok fun p hp => ?_
  exact (Automaton.valueAt_start (sum_stops hp)).symm

end Expr

end PenFilter
