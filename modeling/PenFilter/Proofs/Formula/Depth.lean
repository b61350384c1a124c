import PenFilter.Proofs.Formula.Recognition

/-! # What nests too deep

The height of a derivation is the number of levels that the parser needs for it.  With fewer levels
the parser reads what comes before the first phrase that is too high, and there it gives up for
that reason and no other (`Grammar.Sum.tooDeep`).  So the height alone decides what becomes of
tokens that the grammar derives (`Expr.ofTokens_of_sum`). -/

namespace PenFilter

/-! ### Tokens of operators -/

namespace Cursor

variable {c : Cursor}

theorem sumOperator?_plus (h : c.peek? = some .plus) : c.sumOperator? = some (.add, c.advance) := by
  simp [sumOperator?, h]

theorem sumOperator?_minus (h : c.peek? = some .minus) :
    c.sumOperator? = some (.sub, c.advance) := by
  simp [sumOperator?, h]

theorem productOperator?_star (h : c.peek? = some .star) :
    c.productOperator? = some (.mul, c.advance) := by
  simp [productOperator?, h]

theorem productOperator?_slash (h : c.peek? = some .slash) :
    c.productOperator? = some (.div, c.advance) := by
  simp [productOperator?, h]

end Cursor

namespace Expr

variable {operator? : Cursor → Option (Operator × Cursor)} {operand : Parser Expr}
  {error : ParseError}

/-! ### Loops that fail -/

theorem chain_error {c : Cursor} (h : operand c = .error error) :
    chain operator? operand c = .error error := by
  simp [chain, h, bind, Except.bind]

theorem ChainAt.next_error {r : Except ParseError (Expr × Cursor)} {c c₁ c₂ : Cursor}
    {op : Operator} {a : Expr} (h : ChainAt operator? operand r a c)
    (hop : operator? c = some (op, c₁)) (hcount : c₁.count = .ok c₂)
    (hoperand : operand c₂ = .error error) (hrest : c.rest ≠ []) : r = .error error := by
  obtain ⟨k, hk, rfl⟩ := h
  have hpos := List.length_pos_iff.mpr hrest
  obtain ⟨l, rfl⟩ : ∃ l, k = l + 1 := ⟨k - 1, by omega⟩
  simp [chainTail, hop, hcount, hoperand, bind, Except.bind]

theorem ChainAt.binary_error {r : Except ParseError (Expr × Cursor)} {c d : Cursor} {t : Token}
    {ts us : List Token} {op : Operator} {a b : Expr}
    (hop : ∀ c : Cursor, c.peek? = some t → operator? c = some (op, c.advance))
    (hreach : c.Reaches (ts ++ t :: us) (Expr.binary op a b).operations d)
    (ha : ∀ {c₁ : Cursor}, c.Reaches ts a.operations c₁ → c₁.peek? = some t →
      ChainAt operator? operand r a c₁)
    (hb : ∀ {c₁ : Cursor}, c₁.Reaches us b.operations d → operand c₁ = .error error) :
    r = .error error := by
  have hreach' : c.Reaches (ts ++ t :: us) (a.operations + (b.operations + 1)) d := hreach
  obtain ⟨c₁, h₁, h₂⟩ := hreach'.split
  obtain ⟨hpeek, h₃⟩ := h₂.tail
  obtain ⟨c₂, hcount, h₄⟩ := h₃.counted
  have hrest : c₁.rest ≠ [] := by
    intro hnil
    simp [Cursor.peek?, hnil] at hpeek
  exact (ha h₁ hpeek).next_error (hop c₁ hpeek) hcount (hb h₄) hrest

theorem ChainAt.juxtaposed_error {r : Except ParseError (Expr × Cursor)} {c d : Cursor}
    {t u : Token} {ts us : List Token} {a b : Expr} (hj : Grammar.Juxtaposed t u)
    (ht : ts.getLast? = some t) (hu : us.head? = some u)
    (hreach : c.Reaches (ts ++ us) (Expr.binary .mul a b).operations d)
    (ha : ∀ {c₁ : Cursor}, c.Reaches ts a.operations c₁ → c₁.peek? = some u →
      ChainAt Cursor.productOperator? operand r a c₁)
    (hb : ∀ {c₁ : Cursor}, c₁.Reaches us b.operations d → operand c₁ = .error error) :
    r = .error error := by
  have hreach' : c.Reaches (ts ++ us) (a.operations + (b.operations + 1)) d := hreach
  obtain ⟨c₁, h₁, h₂⟩ := hreach'.split
  obtain ⟨c₂, hcount, h₃⟩ := h₂.counted
  have hpeek : c₁.peek? = some u := by
    rw [Cursor.peek?_eq, h₂.tokens_eq, List.head?_append, hu, Option.some_or]
  have hprevious : c₁.previous = some t := by
    rw [h₁.previous_eq (by rintro rfl; cases ht), ht]
  have hrest : c₁.rest ≠ [] := by
    intro hnil
    simp [Cursor.peek?, hnil] at hpeek
  exact (ha h₁ hpeek).next_error (Cursor.productOperator?_of_juxtaposed hprevious hpeek hj) hcount
    (hb h₃) hrest

theorem argumentList_error {argument : Parser Expr} {c : Cursor} (hc : c.peek? ≠ some .closing)
    (h : argument c = .error error) : argumentList argument c = .error error := by
  unfold argumentList
  split
  · contradiction
  · simp [h, bind, Except.bind]

theorem ArgumentsAt.next_error {argument : Parser Expr}
    {r : Except ParseError (List Expr × Cursor)} {c : Cursor} {args : List Expr}
    (h : ArgumentsAt argument r args c) (hc : c.peek? = some .comma)
    (he : argument c.advance = .error error) : r = .error error := by
  obtain ⟨k, hk, rfl⟩ := h
  obtain ⟨l, rfl⟩ : ∃ l, k = l + 1 := by
    refine ⟨k - 1, ?_⟩
    cases hrest : c.rest with
    | nil => simp [Cursor.peek?, hrest] at hc
    | cons p rest => rw [hrest, List.length_cons] at hk; omega
  simp [argumentsTail, hc, he, bind, Except.bind]

end Expr

namespace Grammar

open PenFilter.Expr

variable {schema : Schema}

section

variable {group : Parser Expr} {argumentReader : Parser (List Expr)} {c : Cursor}
  {error : ParseError}

theorem primary_of_group_error (hc : c.peek? = some .opening)
    (hgroup : group c.advance = .error error) :
    primary schema group argumentReader c = .error error := by
  obtain ⟨offset, rest, hrest⟩ := Cursor.rest_of_peek? hc
  simp [primary, hrest, hgroup, bind, Except.bind]

theorem primary_of_call_error {name : String} {f : Builtin} {c₁ : Cursor}
    (hc : c.peek? = some (.name name)) (hopening : c.advance.peek? = some .opening)
    (hf : Builtin.ofName? name = some f) (hcount : c.advance.advance.count = .ok c₁)
    (hargs : argumentReader c₁ = .error error) :
    primary schema group argumentReader c = .error error := by
  obtain ⟨offset, rest, hrest⟩ := Cursor.rest_of_peek? hc
  simp [primary, hrest, hopening, ofCall, hf, hcount, hargs, bind, Except.bind]

/-- What comes before the tokens of a right operand is passed over with the left one. -/
theorem reaches_lhs {d : Cursor} {ts us : List Token} {op : Operator} {a b : Expr}
    (h : c.Reaches (ts ++ us) (Expr.binary op a b).operations d) :
    ∃ c₁, c.Reaches ts a.operations c₁ := by
  have h' : c.Reaches (ts ++ us) (a.operations + (b.operations + 1)) d := h
  obtain ⟨c₁, h₁, -⟩ := h'.split
  exact ⟨c₁, h₁⟩

end

/-! ### Phrases that are too high -/

mutual

theorem Sum.tooDeep {m ts e} (h : Sum schema m ts e) {n : Nat} {c d : Cursor} (hn : n < m)
    (hreach : c.Reaches ts e.operations d) : sum (signed schema n) c = .error .tooDeep := by
  match h with
  | .product h => exact chain_error (h.tooDeep hn hreach)
  | @Sum.add _ l m ts us a b ha hb =>
      by_cases hl : n < l
      · obtain ⟨c₁, h₁⟩ := reaches_lhs hreach
        exact ha.tooDeep hl h₁
      · exact ChainAt.binary_error (fun _ => Cursor.sumOperator?_plus) hreach
          (fun h₁ hp => ha.reads (n := n) (by omega) h₁ (closesProduct_of_sign (.inl hp)))
          (fun h₁ => hb.tooDeep (by omega) h₁)
  | @Sum.sub _ l m ts us a b ha hb =>
      by_cases hl : n < l
      · obtain ⟨c₁, h₁⟩ := reaches_lhs hreach
        exact ha.tooDeep hl h₁
      · exact ChainAt.binary_error (fun _ => Cursor.sumOperator?_minus) hreach
          (fun h₁ hp => ha.reads (n := n) (by omega) h₁ (closesProduct_of_sign (.inr hp)))
          (fun h₁ => hb.tooDeep (by omega) h₁)

theorem Product.tooDeep {m ts e} (h : Product schema m ts e) {n : Nat} {c d : Cursor} (hn : n < m)
    (hreach : c.Reaches ts e.operations d) : product (signed schema n) c = .error .tooDeep := by
  match h with
  | .signed h => exact chain_error (h.tooDeep hn hreach)
  | @Product.mul _ l m ts us a b ha hb =>
      by_cases hl : n < l
      · obtain ⟨c₁, h₁⟩ := reaches_lhs hreach
        exact ha.tooDeep hl h₁
      · exact ChainAt.binary_error (fun _ => Cursor.productOperator?_star) hreach
          (fun h₁ hp => ha.reads (n := n) (by omega) h₁ (hp ▸ ⟨by simp, by simp⟩))
          (fun h₁ => hb.tooDeep (by omega) h₁)
  | @Product.div _ l m ts us a b ha hb =>
      by_cases hl : n < l
      · obtain ⟨c₁, h₁⟩ := reaches_lhs hreach
        exact ha.tooDeep hl h₁
      · exact ChainAt.binary_error (fun _ => Cursor.productOperator?_slash) hreach
          (fun h₁ hp => ha.reads (n := n) (by omega) h₁ (hp ▸ ⟨by simp, by simp⟩))
          (fun h₁ => hb.tooDeep (by omega) h₁)
  | @Product.implied _ l m ts us a b t u ha hb ht hu hj =>
      by_cases hl : n < l
      · obtain ⟨c₁, h₁⟩ := reaches_lhs hreach
        exact ha.tooDeep hl h₁
      · exact ChainAt.juxtaposed_error hj ht hu hreach
          (fun h₁ hp => ha.reads (n := n) (by omega) h₁ (ht ▸ hp ▸ closesOperand_of_juxtaposed hj))
          (fun h₁ => hb.tooDeep (by omega) h₁)

theorem Signed.tooDeep {m ts e} (h : Signed schema m ts e) {n : Nat} {c d : Cursor} (hn : n < m)
    (hreach : c.Reaches ts e.operations d) : signed schema n c = .error .tooDeep := by
  cases n with
  | zero => rfl
  | succ n =>
      match h with
      | .power h =>
          rw [signed_of_begins h.head hreach.tokens_eq]
          exact h.tooDeep (by omega) hreach
      | .minus h =>
          obtain ⟨hpeek, h₁⟩ := hreach.tail
          obtain ⟨c₁, hcount, h₂⟩ := h₁.counted
          have herror : signed schema n c₁ = .error .tooDeep := h.tooDeep (by omega) h₂
          simp [signed, hpeek, hcount, herror, bind, Except.bind]
      | .plus h =>
          obtain ⟨hpeek, h₁⟩ := hreach.tail
          have herror : signed schema n c.advance = .error .tooDeep := h.tooDeep (by omega) h₁
          simp [signed, hpeek, herror]

theorem Power.tooDeep {m ts e} (h : Power schema m ts e) {n : Nat} {c d : Cursor} (hn : n < m)
    (hreach : c.Reaches ts e.operations d) :
    power (primary schema (sum (signed schema n)) (arguments schema n)) (signed schema n) c =
      .error .tooDeep := by
  match h with
  | .primary h =>
      have herror := h.tooDeep hn hreach
      simp [power, herror, bind, Except.bind]
  | @Power.pow _ l m ts us a b ha hb =>
      have hreach' : c.Reaches (ts ++ .caret :: us) (a.operations + (b.operations + 1)) d :=
        hreach
      obtain ⟨c₁, h₁, h₂⟩ := hreach'.split
      by_cases hl : n < l
      · have herror := ha.tooDeep hl h₁
        simp [power, herror, bind, Except.bind]
      · obtain ⟨hpeek, h₃⟩ := h₂.tail
        obtain ⟨c₂, hcount, h₄⟩ := h₃.counted
        have hbase : primary schema (sum (signed schema n)) (arguments schema n) c =
            .ok (a, c₁) := ha.reads (by omega) h₁ (by simp [hpeek])
        have herror : signed schema n c₂ = .error .tooDeep := hb.tooDeep (by omega) h₄
        simp [power, hbase, hpeek, hcount, herror, bind, Except.bind]

theorem Primary.tooDeep {m ts e} (h : Primary schema m ts e) {n : Nat} {c d : Cursor} (hn : n < m)
    (hreach : c.Reaches ts e.operations d) :
    primary schema (sum (signed schema n)) (arguments schema n) c = .error .tooDeep := by
  match h with
  | @Primary.call _ l ts name f args hf h hl =>
      obtain ⟨hname, h₁⟩ := hreach.tail
      obtain ⟨hopening, h₂⟩ := h₁.tail
      obtain ⟨c₁, hcount, h₃⟩ := h₂.counted
      have h₃' : c₁.Reaches (ts ++ [.closing]) (operationsAll args + 0) d := h₃
      obtain ⟨c₂, h₄, -⟩ := h₃'.split
      refine primary_of_call_error hname hopening hf hcount ?_
      cases n with
      | zero => rfl
      | succ n => exact h.tooDeep (by omega) h₄
  | @Primary.group _ l ts e h =>
      obtain ⟨hopening, h₁⟩ := hreach.tail
      have h₁' : c.advance.Reaches (ts ++ [.closing]) (e.operations + 0) d := h₁
      obtain ⟨c₁, h₂, -⟩ := h₁'.split
      exact primary_of_group_error hopening (h.tooDeep hn h₂)

theorem Arguments.tooDeep {m ts args} (h : Arguments schema m ts args) {n : Nat} {c d : Cursor}
    (hn : n < m) (hreach : c.Reaches ts (operationsAll args) d) :
    argumentList (sum (signed schema n)) c = .error .tooDeep := by
  match h with
  | @Arguments.one _ l ts e h =>
      have hreach' : c.Reaches ts e.operations d := by simpa [operationsAll] using hreach
      exact argumentList_error (peek?_ne_closing h.head hreach.tokens_eq) (h.tooDeep hn hreach')
  | @Arguments.more _ l m ts us args e ha hb =>
      have hreach' : c.Reaches (ts ++ .comma :: us) (operationsAll args + e.operations) d := by
        simpa [operationsAll_append, operationsAll] using hreach
      obtain ⟨c₁, h₁, h₂⟩ := hreach'.split
      by_cases hl : n < l
      · exact ha.tooDeep hl h₁
      · obtain ⟨hcomma, h₃⟩ := h₂.tail
        exact (ha.reads (n := n) (by omega) h₁ (.inr hcomma)).next_error hcomma
          (hb.tooDeep (by omega) h₃)

end

end Grammar

/-! ### Whole lists of tokens -/

namespace Expr

/-- **The height decides**: tokens that spell a tree within the limit of size are read as the tree
if the derivation is not too high, and are refused as too deep otherwise. -/
theorem ofTokens_of_sum {schema : Schema} {tokens : List Placed} {e : Expr} {m : Nat}
    (h : Grammar.Sum schema m (tokens.map Placed.token) e) (hk : e.operations ≤ maxOperations) :
    ofTokens schema tokens = if m ≤ maxDepth then .ok e else .error .tooDeep := by
  split
  · rename_i hm
    exact ofTokens_of_derived hm h hk
  · rename_i hm
    have hne : tokens ≠ [] := by
      rintro rfl
      exact h.ne_nil rfl
    have happend : (Cursor.ofTokens tokens).tokens = tokens.map Placed.token ++ [] :=
      (List.append_nil _).symm
    obtain ⟨d, hreach, -⟩ := Cursor.exists_reaches happend hk
    have herror := h.tooDeep (Nat.lt_of_not_le hm) hreach
    simp [ofTokens, hne, herror, bind, Except.bind]

end Expr

end PenFilter
