import PenFilter.Proofs.Formula.Soundness

/-! # The parser accepts what is in the grammar

A derivation tells the parser what to do as long as nothing that follows prolongs the phrase.
`ClosesOperand`, `ClosesProduct` and `ClosesSum` say so of the last token of a phrase and the
token after it.  The chains of a sum and of a product are read from the left, so that a
derivation of a chain says how far the loop has come (`Grammar.Sum.reads`), and the end of the
phrase is what stops it.

* `Expr.ofTokens_eq_ok_iff_derived`: the parser builds `e` exactly when the grammar derives `e`
  within the limits, and no list of tokens derives two trees. -/

namespace PenFilter

/-- Neither an exponent nor the arguments of a call follow. -/
structure ClosesOperand (last next : Option Token) : Prop where
  no_exponent : next ≠ some .caret
  no_call : ∀ name, last = some (.name name) → next ≠ some .opening

/-- Nor a further operand of a product. -/
structure ClosesProduct (last next : Option Token) : Prop extends ClosesOperand last next where
  no_star : next ≠ some .star
  no_slash : next ≠ some .slash
  no_juxtaposition : ∀ t u, last = some t → next = some u → ¬ Grammar.Juxtaposed t u

/-- Nor a further operand of a sum. -/
structure ClosesSum (last next : Option Token) : Prop extends ClosesProduct last next where
  no_plus : next ≠ some .plus
  no_minus : next ≠ some .minus

theorem closesOperand_of_juxtaposed {t u : Token} (h : Grammar.Juxtaposed t u) :
    ClosesOperand (some t) (some u) := by
  constructor <;> cases h <;> simp

theorem closesProduct_of_sign {last next : Option Token}
    (h : next = some .plus ∨ next = some .minus) : ClosesProduct last next := by
  rcases h with rfl | rfl
  · refine ⟨⟨by simp, by simp⟩, by simp, by simp, ?_⟩
    rintro t u - hu hj
    cases hu
    cases hj
  · refine ⟨⟨by simp, by simp⟩, by simp, by simp, ?_⟩
    rintro t u - hu hj
    cases hu
    cases hj

theorem closesSum_of_end {last next : Option Token}
    (h : next = none ∨ next = some .closing ∨ next = some .comma) : ClosesSum last next := by
  have hjuxtaposed : ∀ t u, last = some t → next = some u → ¬ Grammar.Juxtaposed t u := by
    rintro t u - rfl hj
    cases hj <;> simp at h
  rcases h with rfl | rfl | rfl <;>
    exact ⟨⟨⟨by simp, by simp⟩, by simp, by simp, hjuxtaposed⟩, by simp, by simp⟩

namespace Cursor

variable {c : Cursor}

theorem productOperator?_eq_none (h : ClosesProduct c.previous c.peek?) :
    c.productOperator? = none := by
  cases hop : c.productOperator? with
  | none => rfl
  | some p =>
      rcases productOperator?_eq_some hop with
        ⟨hp, _⟩ | ⟨hp, _⟩ | ⟨⟨t, u, ht, hu, hj⟩, _⟩
      · exact absurd hp h.no_star
      · exact absurd hp h.no_slash
      · exact absurd hj (h.no_juxtaposition t u ht hu)

theorem sumOperator?_eq_none (h : ClosesSum c.previous c.peek?) : c.sumOperator? = none := by
  cases hop : c.sumOperator? with
  | none => rfl
  | some p =>
      rcases sumOperator?_eq_some hop with ⟨hp, _⟩ | ⟨hp, _⟩
      · exact absurd hp h.no_plus
      · exact absurd hp h.no_minus

theorem productOperator?_of_juxtaposed {t u : Token} (ht : c.previous = some t)
    (hu : c.peek? = some u) (hj : Grammar.Juxtaposed t u) :
    c.productOperator? = some (.mul, c) := by
  have himplied : impliesProduct (some t) (some u) = true :=
    impliesProduct_iff.mpr ⟨t, u, rfl, rfl, hj⟩
  unfold productOperator?
  rw [hu, ht]
  cases hj <;> simp [himplied]

end Cursor

namespace Expr

variable {schema : Schema} {operator? : Cursor → Option (Operator × Cursor)}
  {operand : Parser Expr}

/-! ### Loops -/

/-- The reader `p` has come to the cursor `d` with the chain `e`, and enough rounds are left. -/
def ChainAt (operator? : Cursor → Option (Operator × Cursor)) (operand : Parser Expr)
    (r : Except ParseError (Expr × Cursor)) (e : Expr) (d : Cursor) : Prop :=
  ∃ k, d.rest.length ≤ k ∧ r = chainTail operator? operand k e d

theorem chainAt_first {c d : Cursor} {e : Expr} (h : operand c = .ok (e, d)) :
    ChainAt operator? operand (chain operator? operand c) e d :=
  ⟨d.rest.length, Nat.le_refl _, by simp [chain, h, bind, Except.bind]⟩

theorem ChainAt.next {r : Except ParseError (Expr × Cursor)} {c c₁ c₂ d : Cursor}
    {op : Operator} {a b : Expr} (h : ChainAt operator? operand r a c)
    (hop : operator? c = some (op, c₁)) (hcount : c₁.count = .ok c₂)
    (hoperand : operand c₂ = .ok (b, d)) (hlt : d.rest.length < c.rest.length) :
    ChainAt operator? operand r (.binary op a b) d := by
  obtain ⟨k, hk, rfl⟩ := h
  obtain ⟨l, rfl⟩ : ∃ l, k = l + 1 := ⟨k - 1, by omega⟩
  refine ⟨l, by omega, ?_⟩
  simp [chainTail, hop, hcount, hoperand, bind, Except.bind]

theorem ChainAt.stop {r : Except ParseError (Expr × Cursor)} {d : Cursor} {e : Expr}
    (h : ChainAt operator? operand r e d) (hop : operator? d = none) : r = .ok (e, d) := by
  obtain ⟨k, _, rfl⟩ := h
  cases k with
  | zero => rfl
  | succ k => simp [chainTail, hop]

theorem ChainAt.stop_product {r : Except ParseError (Expr × Cursor)} {c d : Cursor} {e : Expr}
    {ts : List Token} {k : Nat} (h : ChainAt Cursor.productOperator? operand r e d)
    (hreach : c.Reaches ts k d) (hts : ts ≠ []) (hclose : ClosesProduct ts.getLast? d.peek?) :
    r = .ok (e, d) :=
  h.stop (Cursor.productOperator?_eq_none (hreach.previous_eq hts ▸ hclose))

theorem ChainAt.stop_sum {r : Except ParseError (Expr × Cursor)} {c d : Cursor} {e : Expr}
    {ts : List Token} {k : Nat} (h : ChainAt Cursor.sumOperator? operand r e d)
    (hreach : c.Reaches ts k d) (hts : ts ≠ []) (hclose : ClosesSum ts.getLast? d.peek?) :
    r = .ok (e, d) :=
  h.stop (Cursor.sumOperator?_eq_none (hreach.previous_eq hts ▸ hclose))

theorem ChainAt.binary {r : Except ParseError (Expr × Cursor)} {c d : Cursor} {t : Token}
    {ts us : List Token} {op : Operator} {a b : Expr}
    (hop : ∀ c : Cursor, c.peek? = some t → operator? c = some (op, c.advance))
    (hreach : c.Reaches (ts ++ t :: us) (Expr.binary op a b).operations d)
    (ha : ∀ {c₁ : Cursor}, c.Reaches ts a.operations c₁ → c₁.peek? = some t →
      ChainAt operator? operand r a c₁)
    (hb : ∀ {c₁ : Cursor}, c₁.Reaches us b.operations d → operand c₁ = .ok (b, d)) :
    ChainAt operator? operand r (.binary op a b) d := by
  have hreach' : c.Reaches (ts ++ t :: us) (a.operations + (b.operations + 1)) d := hreach
  obtain ⟨c₁, h₁, h₂⟩ := hreach'.split
  obtain ⟨hpeek, h₃⟩ := h₂.tail
  obtain ⟨c₂, hcount, h₄⟩ := h₃.counted
  have hlength := h₂.length_eq
  rw [List.length_cons] at hlength
  exact (ha h₁ hpeek).next (hop c₁ hpeek) hcount (hb h₄) (by omega)

/-- One more operand where the sign of a product is left out. -/
theorem ChainAt.juxtaposed {r : Except ParseError (Expr × Cursor)} {c d : Cursor} {t u : Token}
    {ts us : List Token} {a b : Expr} (hj : Grammar.Juxtaposed t u)
    (ht : ts.getLast? = some t) (hu : us.head? = some u)
    (hreach : c.Reaches (ts ++ us) (Expr.binary .mul a b).operations d)
    (ha : ∀ {c₁ : Cursor}, c.Reaches ts a.operations c₁ → c₁.peek? = some u →
      ChainAt Cursor.productOperator? operand r a c₁)
    (hb : ∀ {c₁ : Cursor}, c₁.Reaches us b.operations d → operand c₁ = .ok (b, d)) :
    ChainAt Cursor.productOperator? operand r (.binary .mul a b) d := by
  have hreach' : c.Reaches (ts ++ us) (a.operations + (b.operations + 1)) d := hreach
  obtain ⟨c₁, h₁, h₂⟩ := hreach'.split
  obtain ⟨c₂, hcount, h₃⟩ := h₂.counted
  have hpeek : c₁.peek? = some u := by
    rw [Cursor.peek?_eq, h₂.tokens_eq, List.head?_append, hu, Option.some_or]
  have hprevious : c₁.previous = some t := by
    rw [h₁.previous_eq (by rintro rfl; cases ht), ht]
  have hlength := h₂.length_eq
  have hpos : 0 < us.length := List.length_pos_iff.mpr (by rintro rfl; cases hu)
  exact (ha h₁ hpeek).next (Cursor.productOperator?_of_juxtaposed hprevious hpeek hj) hcount
    (hb h₃) (by omega)

/-- The reader of an argument list has come to the cursor `d` with the arguments `args`, and
enough rounds are left. -/
def ArgumentsAt (argument : Parser Expr) (r : Except ParseError (List Expr × Cursor))
    (args : List Expr) (d : Cursor) : Prop :=
  ∃ k, d.rest.length ≤ k ∧ r = argumentsTail argument k args d

theorem argumentsAt_first {argument : Parser Expr} {c d : Cursor} {e : Expr}
    (hc : c.peek? ≠ some .closing) (h : argument c = .ok (e, d)) :
    ArgumentsAt argument (argumentList argument c) [e] d := by
  refine ⟨d.rest.length, Nat.le_refl _, ?_⟩
  unfold argumentList
  split
  · contradiction
  · simp [h, bind, Except.bind]

theorem ArgumentsAt.next {argument : Parser Expr} {r : Except ParseError (List Expr × Cursor)}
    {c d : Cursor} {args : List Expr} {e : Expr} (h : ArgumentsAt argument r args c)
    (hc : c.peek? = some .comma) (he : argument c.advance = .ok (e, d))
    (hlt : d.rest.length < c.rest.length) : ArgumentsAt argument r (args ++ [e]) d := by
  obtain ⟨k, hk, rfl⟩ := h
  obtain ⟨l, rfl⟩ : ∃ l, k = l + 1 := ⟨k - 1, by omega⟩
  refine ⟨l, by omega, ?_⟩
  simp [argumentsTail, hc, he, bind, Except.bind]

theorem ArgumentsAt.stop {argument : Parser Expr} {r : Except ParseError (List Expr × Cursor)}
    {d : Cursor} {args : List Expr} (h : ArgumentsAt argument r args d)
    (hd : d.peek? = some .closing) : r = .ok (args, d.advance) := by
  obtain ⟨k, hk, rfl⟩ := h
  obtain ⟨l, rfl⟩ : ∃ l, k = l + 1 := by
    refine ⟨k - 1, ?_⟩
    cases hrest : d.rest with
    | nil => simp [Cursor.peek?, hrest] at hd
    | cons p rest => rw [hrest, List.length_cons] at hk; omega
  simp [argumentsTail, hd]

end Expr

namespace Grammar

open PenFilter.Expr

variable {schema : Schema}

theorem signed_of_begins {n : Nat} {c : Cursor} {ts us : List Token}
    (h : ∃ t vs, ts = t :: vs ∧ BeginsPrimary t) (hc : c.tokens = ts ++ us) :
    signed schema (n + 1) c =
      power (primary schema (sum (signed schema n)) (arguments schema n)) (signed schema n) c := by
  obtain ⟨t, vs, rfl, ht⟩ := h
  have hpeek : c.peek? = some t := by rw [Cursor.peek?_eq, hc]; rfl
  cases t <;> first | exact ht.elim | simp only [signed, hpeek]

variable {group : Parser Expr} {argumentReader : Parser (List Expr)} {c d : Cursor}

theorem primary_of_number {value : Double} (h : c.peek? = some (.number value)) :
    primary schema group argumentReader c = .ok (.number value, c.advance) := by
  obtain ⟨offset, rest, hrest⟩ := Cursor.rest_of_peek? h
  simp [primary, hrest]

theorem primary_of_name {name : String} {e : Expr} (hreach : c.Reaches [.name name] 0 d)
    (hd : d.peek? ≠ some .opening) (he : ∀ offset, ofName schema name offset = .ok e) :
    primary schema group argumentReader c = .ok (e, d) := by
  obtain ⟨hpeek, h₁⟩ := hreach.tail
  obtain rfl := (Cursor.Reaches.refl c.advance).unique h₁
  obtain ⟨offset, rest, hrest⟩ := Cursor.rest_of_peek? hpeek
  simp [primary, hrest, hd, he offset, Except.map]

theorem primary_of_group {e : Expr} (hc : c.peek? = some .opening)
    (hgroup : group c.advance = .ok (e, d)) (hd : d.peek? = some .closing) :
    primary schema group argumentReader c = .ok (e, d.advance) := by
  obtain ⟨offset, rest, hrest⟩ := Cursor.rest_of_peek? hc
  simp [primary, hrest, hgroup, hd, bind, Except.bind]

theorem primary_of_call {name : String} {f : Builtin} {args : List Expr} {c₁ : Cursor}
    (hc : c.peek? = some (.name name)) (hopening : c.advance.peek? = some .opening)
    (hf : Builtin.ofName? name = some f) (hcount : c.advance.advance.count = .ok c₁)
    (hargs : argumentReader c₁ = .ok (args, d)) (hlength : args.length = f.arity) :
    primary schema group argumentReader c = .ok (.call f args, d) := by
  obtain ⟨offset, rest, hrest⟩ := Cursor.rest_of_peek? hc
  simp [primary, hrest, hopening, ofCall, hf, hcount, hargs, hlength, bind, Except.bind]

theorem peek?_ne_closing {ts us : List Token}
    (h : ∃ t vs, ts = t :: vs ∧ BeginsOperand t) (hc : c.tokens = ts ++ us) :
    c.peek? ≠ some .closing := by
  obtain ⟨t, vs, rfl, ht⟩ := h
  rw [Cursor.peek?_eq, hc]
  rintro ⟨⟩
  rcases ht with ht | ht | ht <;> cases ht

theorem getLast?_append_ne_nil {ts us : List Token} (h : us ≠ []) :
    (ts ++ us).getLast? = us.getLast? := by
  rw [List.getLast?_append, List.getLast?_eq_some_getLast h, Option.some_or]

theorem getLast?_append_cons {ts us : List Token} {t : Token} (h : us ≠ []) :
    (ts ++ t :: us).getLast? = us.getLast? := by
  rw [List.append_cons, getLast?_append_ne_nil h]

mutual

theorem Sum.reads {m ts e} (h : Sum schema m ts e) {n : Nat} {c d : Cursor} (hm : m ≤ n)
    (hreach : c.Reaches ts e.operations d) (hclose : ClosesProduct ts.getLast? d.peek?) :
    ChainAt Cursor.sumOperator? (product (signed schema n)) (sum (signed schema n) c) e d := by
  match h with
  | .product h =>
      have hproduct := h.reads hm hreach hclose.toClosesOperand
      exact chainAt_first (hproduct.stop_product hreach h.ne_nil hclose)
  | .add ha hb =>
      rw [getLast?_append_cons hb.ne_nil] at hclose
      refine .binary (fun c hp => by simp [Cursor.sumOperator?, hp]) hreach ?_ ?_
      · intro c₁ h₁ hp
        exact ha.reads (by omega) h₁ (closesProduct_of_sign (.inl hp))
      · intro c₁ h₁
        have hproduct := hb.reads (n := n) (by omega) h₁ hclose.toClosesOperand
        exact hproduct.stop_product h₁ hb.ne_nil hclose
  | .sub ha hb =>
      rw [getLast?_append_cons hb.ne_nil] at hclose
      refine .binary (fun c hp => by simp [Cursor.sumOperator?, hp]) hreach ?_ ?_
      · intro c₁ h₁ hp
        exact ha.reads (by omega) h₁ (closesProduct_of_sign (.inr hp))
      · intro c₁ h₁
        have hproduct := hb.reads (n := n) (by omega) h₁ hclose.toClosesOperand
        exact hproduct.stop_product h₁ hb.ne_nil hclose

theorem Product.reads {m ts e} (h : Product schema m ts e) {n : Nat} {c d : Cursor} (hm : m ≤ n)
    (hreach : c.Reaches ts e.operations d) (hclose : ClosesOperand ts.getLast? d.peek?) :
    ChainAt Cursor.productOperator? (signed schema n) (product (signed schema n) c) e d := by
  match h with
  | .signed h => exact chainAt_first (h.reads hm hreach hclose)
  | .mul ha hb =>
      rw [getLast?_append_cons hb.ne_nil] at hclose
      refine .binary (fun c hp => by simp [Cursor.productOperator?, hp]) hreach ?_ ?_
      · intro c₁ h₁ hp
        exact ha.reads (by omega) h₁ (hp ▸ ⟨by simp, by simp⟩)
      · intro c₁ h₁
        exact hb.reads (by omega) h₁ hclose
  | .div ha hb =>
      rw [getLast?_append_cons hb.ne_nil] at hclose
      refine .binary (fun c hp => by simp [Cursor.productOperator?, hp]) hreach ?_ ?_
      · intro c₁ h₁ hp
        exact ha.reads (by omega) h₁ (hp ▸ ⟨by simp, by simp⟩)
      · intro c₁ h₁
        exact hb.reads (by omega) h₁ hclose
  | .implied ha hb ht hu hj =>
      rw [getLast?_append_ne_nil hb.ne_nil] at hclose
      refine .juxtaposed hj ht hu hreach ?_ ?_
      · intro c₁ h₁ hp
        exact ha.reads (by omega) h₁ (ht ▸ hp ▸ closesOperand_of_juxtaposed hj)
      · intro c₁ h₁
        exact hb.reads (by omega) h₁ hclose

theorem Signed.reads {m ts e} (h : Signed schema m ts e) {n : Nat} {c d : Cursor} (hm : m ≤ n)
    (hreach : c.Reaches ts e.operations d) (hclose : ClosesOperand ts.getLast? d.peek?) :
    signed schema n c = .ok (e, d) := by
  obtain ⟨n, rfl⟩ : ∃ l, n = l + 1 := ⟨n - 1, by cases h <;> omega⟩
  match h with
  | .power h =>
      rw [signed_of_begins h.head hreach.tokens_eq]
      exact h.reads (by omega) hreach hclose
  | .minus h =>
      obtain ⟨hpeek, h₁⟩ := hreach.tail
      obtain ⟨c₁, hcount, h₂⟩ := h₁.counted
      rw [← List.singleton_append, getLast?_append_ne_nil h.ne_nil] at hclose
      have hread : signed schema n c₁ = .ok (_, d) := h.reads (by omega) h₂ hclose
      simp [signed, hpeek, hcount, hread, bind, Except.bind]
  | .plus h =>
      obtain ⟨hpeek, h₁⟩ := hreach.tail
      rw [← List.singleton_append, getLast?_append_ne_nil h.ne_nil] at hclose
      have hread : signed schema n c.advance = .ok (e, d) := h.reads (by omega) h₁ hclose
      simp [signed, hpeek, hread]

theorem Power.reads {m ts e} (h : Power schema m ts e) {n : Nat} {c d : Cursor} (hm : m ≤ n)
    (hreach : c.Reaches ts e.operations d) (hclose : ClosesOperand ts.getLast? d.peek?) :
    power (primary schema (sum (signed schema n)) (arguments schema n)) (signed schema n) c =
      .ok (e, d) := by
  match h with
  | .primary h =>
      have hread := h.reads hm hreach hclose.no_call
      simp [power, hread, hclose.no_exponent, bind, Except.bind]
  | @Power.pow _ l m ts us a b ha hb =>
      have hreach' : c.Reaches (ts ++ .caret :: us) (a.operations + (b.operations + 1)) d :=
        hreach
      obtain ⟨c₁, h₁, h₂⟩ := hreach'.split
      obtain ⟨hpeek, h₃⟩ := h₂.tail
      obtain ⟨c₂, hcount, h₄⟩ := h₃.counted
      rw [getLast?_append_cons hb.ne_nil] at hclose
      have hbase : primary schema (sum (signed schema n)) (arguments schema n) c = .ok (a, c₁) :=
        ha.reads (by omega) h₁ (by simp [hpeek])
      have hexponent : signed schema n c₂ = .ok (b, d) := hb.reads (by omega) h₄ hclose
      simp [power, hbase, hpeek, hcount, hexponent, bind, Except.bind]

theorem Primary.reads {m ts e} (h : Primary schema m ts e) {n : Nat} {c d : Cursor} (hm : m ≤ n)
    (hreach : c.Reaches ts e.operations d)
    (hclose : ∀ name, ts.getLast? = some (.name name) → d.peek? ≠ some .opening) :
    primary schema (sum (signed schema n)) (arguments schema n) c = .ok (e, d) := by
  match h with
  | .number value =>
      obtain ⟨hpeek, h₁⟩ := hreach.tail
      obtain rfl := (Cursor.Reaches.refl c.advance).unique h₁
      rw [primary_of_number hpeek]
  | @Primary.var _ name slot hs =>
      exact primary_of_name hreach (hclose name rfl) (by simp [ofName, hs])
  | .pi hs => exact primary_of_name hreach (hclose "pi" rfl) (by simp [ofName, hs])
  | .e hs => exact primary_of_name hreach (hclose "e" rfl) (by simp [ofName, hs])
  | @Primary.call _ l ts name f args hf h hl =>
      obtain ⟨hname, h₁⟩ := hreach.tail
      obtain ⟨hopening, h₂⟩ := h₁.tail
      obtain ⟨c₁, hcount, h₃⟩ := h₂.counted
      have h₃' : c₁.Reaches (ts ++ [.closing]) (operationsAll args + 0) d := h₃
      obtain ⟨c₂, h₄, h₅⟩ := h₃'.split
      obtain ⟨hclosing, h₆⟩ := h₅.tail
      obtain rfl := (Cursor.Reaches.refl c₂.advance).unique h₆
      obtain ⟨n, rfl⟩ : ∃ l, n = l + 1 := ⟨n - 1, by omega⟩
      have hat := h.reads (n := n) (by omega) h₄ (.inl hclosing)
      exact primary_of_call hname hopening hf hcount (hat.stop hclosing) hl
  | @Primary.group _ l ts e h =>
      obtain ⟨hopening, h₁⟩ := hreach.tail
      have h₁' : c.advance.Reaches (ts ++ [.closing]) (e.operations + 0) d := h₁
      obtain ⟨c₁, h₂, h₃⟩ := h₁'.split
      obtain ⟨hclosing, h₄⟩ := h₃.tail
      obtain rfl := (Cursor.Reaches.refl c₁.advance).unique h₄
      have hends : ClosesSum ts.getLast? c₁.peek? := closesSum_of_end (.inr (.inl hclosing))
      have hat := h.reads (n := n) hm h₂ hends.toClosesProduct
      exact primary_of_group hopening (hat.stop_sum h₂ h.ne_nil hends) hclosing

theorem Arguments.reads {m ts args} (h : Arguments schema m ts args) {n : Nat} {c d : Cursor}
    (hm : m ≤ n) (hreach : c.Reaches ts (operationsAll args) d)
    (hclose : d.peek? = some .closing ∨ d.peek? = some .comma) :
    ArgumentsAt (sum (signed schema n)) (argumentList (sum (signed schema n)) c) args d := by
  match h with
  | @Arguments.one _ l ts e h =>
      have hreach' : c.Reaches ts e.operations d := by simpa [operationsAll] using hreach
      have hends : ClosesSum ts.getLast? d.peek? := closesSum_of_end (.inr hclose)
      have hat := h.reads (n := n) hm hreach' hends.toClosesProduct
      exact argumentsAt_first (peek?_ne_closing h.head hreach.tokens_eq)
        (hat.stop_sum hreach h.ne_nil hends)
  | @Arguments.more _ l m ts us args e ha hb =>
      have hreach' : c.Reaches (ts ++ .comma :: us) (operationsAll args + e.operations) d := by
        simpa [operationsAll_append, operationsAll] using hreach
      obtain ⟨c₁, h₁, h₂⟩ := hreach'.split
      obtain ⟨hcomma, h₃⟩ := h₂.tail
      have hends : ClosesSum us.getLast? d.peek? := closesSum_of_end (.inr hclose)
      have hat := hb.reads (n := n) (by omega) h₃ hends.toClosesProduct
      have hlength := h₂.length_eq
      rw [List.length_cons] at hlength
      exact (ha.reads (n := n) (by omega) h₁ (.inr hcomma)).next hcomma
        (hat.stop_sum h₃ hb.ne_nil hends) (by omega)

end

/-! ### Whole lists of tokens -/

/-- Whoever has enough levels and enough budget reads a sum up to the end of the tokens. -/
theorem Sum.reads_all {m ts e} (h : Sum schema m ts e) {n : Nat} {c : Cursor} (hm : m ≤ n)
    (htokens : c.tokens = ts) (hbudget : e.operations ≤ c.budget) :
    ∃ d, sum (signed schema n) c = .ok (e, d) ∧ d.rest = [] := by
  have happend : c.tokens = ts ++ [] := by rw [htokens, List.append_nil]
  obtain ⟨d, hreach, hd⟩ := Cursor.exists_reaches happend hbudget
  have hnothing : d.peek? = none := by rw [d.peek?_eq, hd]; rfl
  have hends : ClosesSum ts.getLast? d.peek? := closesSum_of_end (.inl hnothing)
  have hat := h.reads (n := n) hm hreach hends.toClosesProduct
  exact ⟨d, hat.stop_sum hreach h.ne_nil hends, List.map_eq_nil_iff.mp hd⟩

/-- No list of tokens spells two sums, whatever the heights of the derivations and the sizes of
the trees: a cursor with room for both would have to read both. -/
theorem Sum.unique {l m ts a b} (ha : Sum schema l ts a) (hb : Sum schema m ts b) : a = b := by
  let c : Cursor := ⟨none, ts.map fun t => ⟨t, 0⟩, max a.operations b.operations⟩
  have htokens : c.tokens = ts := by simp [c, Cursor.tokens, Function.comp_def]
  obtain ⟨d, hd, -⟩ := ha.reads_all (n := max l m) (by omega) htokens (by simp only [c]; omega)
  obtain ⟨d', hd', -⟩ := hb.reads_all (n := max l m) (by omega) htokens (by simp only [c]; omega)
  rw [hd] at hd'
  cases hd'
  rfl

end Grammar

namespace Expr

variable {schema : Schema}

/-- What the grammar derives within the limits is accepted by the parser. -/
theorem ofTokens_of_derived {tokens : List Placed} {e : Expr} {m : Nat} (hm : m ≤ maxDepth)
    (h : Grammar.Sum schema m (tokens.map Placed.token) e) (hk : e.operations ≤ maxOperations) :
    ofTokens schema tokens = .ok e := by
  obtain ⟨d, hd, hrest⟩ := h.reads_all (c := .ofTokens tokens) hm rfl hk
  have hne : tokens ≠ [] := by
    rintro rfl
    exact h.ne_nil rfl
  simp [ofTokens, hne, hd, hrest, bind, Except.bind]

/-- **The parser is the grammar**: a list of tokens is read as `e` exactly when the grammar
derives `e` from it within the limits of depth and size.  No list of tokens derives two trees,
with or without the limits. -/
theorem ofTokens_eq_ok_iff_derived (schema : Schema) :
    (∀ (tokens : List Placed) (e : Expr), ofTokens schema tokens = .ok e ↔
      ∃ m ≤ maxDepth, Grammar.Sum schema m (tokens.map Placed.token) e ∧
        e.operations ≤ maxOperations) ∧
    ∀ (ts : List Token) (a b : Expr) (l m : Nat),
      Grammar.Sum schema l ts a → Grammar.Sum schema m ts b → a = b := by
  refine ⟨fun tokens e => ⟨derived_of_ofTokens, ?_⟩, fun ts a b l m ha hb => ha.unique hb⟩
  rintro ⟨m, hm, h, hk⟩
  exact ofTokens_of_derived hm h hk

/-- The theorem at `-2x^y`, which is read as `(-2) * (x^y)`. -/
theorem ofTokens_minus_two_x_pow_y :
    let schema : Schema := .ofList ["x", "y"]
    let tokens : List Placed :=
      [⟨.minus, 0⟩, ⟨.number .two, 1⟩, ⟨.name "x", 2⟩, ⟨.caret, 3⟩, ⟨.name "y", 4⟩]
    ofTokens schema tokens = .ok (.binary .mul (.neg (.number .two))
      (.binary .pow (.var "x" 0) (.var "y" 1))) := by
  intro schema tokens
  have hx : Grammar.Primary schema 0 [.name "x"] (.var "x" 0) := .var (by decide)
  have hy : Grammar.Primary schema 0 [.name "y"] (.var "y" 1) := .var (by decide)
  have htwo := @Grammar.Primary.number schema .two
  have hpow := Grammar.Signed.power (.pow hx (.power (.primary hy)))
  have hneg := Grammar.Product.signed (.minus (.power (.primary htwo)))
  have hsum := Grammar.Sum.product (.implied hneg hpow rfl rfl (.numberName .two "x"))
  exact ((ofTokens_eq_ok_iff_derived schema).1 tokens _).mpr ⟨_, by decide, hsum, by decide⟩

end Expr

end PenFilter
