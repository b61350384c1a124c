import PenFilter.Proofs.Formula.Cursor

/-! # What the parser accepts is in the grammar

`Sound n R size p` says that every success of the reader `p` is a derivation in the relation `R`
of height at most `n`, over exactly the tokens that were passed over, with exactly the operators
and calls that were counted.  Each part of the parser keeps this property, so that `signed` and
`arguments` have it at every level (`Expr.signed_sound`). -/

namespace PenFilter

/-- Every success of a reader is a derivation of height at most `n`. -/
def Sound {α : Type} (n : Nat) (R : Nat → List Token → α → Prop) (size : α → Nat)
    (p : Parser α) : Prop :=
  ∀ ⦃c a d⦄, p c = .ok (a, d) → ∃ m ts, m ≤ n ∧ R m ts a ∧ c.Reaches ts (size a) d

namespace Cursor

/-! ### The operators of chains -/

theorem impliesProduct_iff {previous next : Option Token} :
    impliesProduct previous next = true ↔
      ∃ t u, previous = some t ∧ next = some u ∧ Grammar.Juxtaposed t u := by
  constructor
  · intro h
    unfold impliesProduct at h
    split at h
    · exact ⟨_, _, rfl, rfl, .numberName _ _⟩
    · exact ⟨_, _, rfl, rfl, .numberGroup _⟩
    · exact ⟨_, _, rfl, rfl, .groupGroup⟩
    · cases h
  · rintro ⟨t, u, rfl, rfl, h⟩
    cases h <;> rfl

theorem sumOperator?_eq_some {c d : Cursor} {op : Operator} (h : c.sumOperator? = some (op, d)) :
    (c.peek? = some .plus ∧ op = .add ∧ d = c.advance) ∨
      (c.peek? = some .minus ∧ op = .sub ∧ d = c.advance) := by
  unfold sumOperator? at h
  split at h
  · rename_i hp
    cases h
    exact .inl ⟨hp, rfl, rfl⟩
  · rename_i hp
    cases h
    exact .inr ⟨hp, rfl, rfl⟩
  · cases h

theorem productOperator?_eq_some {c d : Cursor} {op : Operator}
    (h : c.productOperator? = some (op, d)) :
    (c.peek? = some .star ∧ op = .mul ∧ d = c.advance) ∨
      (c.peek? = some .slash ∧ op = .div ∧ d = c.advance) ∨
      ((∃ t u, c.previous = some t ∧ c.peek? = some u ∧ Grammar.Juxtaposed t u) ∧
        op = .mul ∧ d = c) := by
  unfold productOperator? at h
  split at h
  · rename_i hp
    cases h
    exact .inl ⟨hp, rfl, rfl⟩
  · rename_i hp
    cases h
    exact .inr (.inl ⟨hp, rfl, rfl⟩)
  · split at h
    · rename_i hi
      cases h
      exact .inr (.inr ⟨impliesProduct_iff.mp hi, rfl, rfl⟩)
    · cases h

end Cursor

namespace Expr

variable {n : Nat} {schema : Schema}

/-! ### Chains -/

/-- An operator with a further operand `R` prolongs a chain `S`. -/
def Prolongs (operator? : Cursor → Option (Operator × Cursor))
    (R S : Nat → List Token → Expr → Prop) : Prop :=
  ∀ ⦃c d op l m ts us a b⦄, S l ts a → c.previous = ts.getLast? →
    operator? c = some (op, d) → R m us b → us.head? = d.peek? →
    ∃ os, c.Reaches os 0 d ∧ S (max l m) (ts ++ (os ++ us)) (.binary op a b)

theorem sumOperator?_prolongs :
    Prolongs Cursor.sumOperator? (Grammar.Product schema) (Grammar.Sum schema) := by
  intro c d op l m ts us a b ha _ hop hb _
  rcases Cursor.sumOperator?_eq_some hop with ⟨hp, rfl, rfl⟩ | ⟨hp, rfl, rfl⟩
  · exact ⟨[.plus], Cursor.reaches_advance hp, .add ha hb⟩
  · exact ⟨[.minus], Cursor.reaches_advance hp, .sub ha hb⟩

theorem productOperator?_prolongs :
    Prolongs Cursor.productOperator? (Grammar.Signed schema) (Grammar.Product schema) := by
  intro c d op l m ts us a b ha hprev hop hb hhead
  rcases Cursor.productOperator?_eq_some hop with
    ⟨hp, rfl, rfl⟩ | ⟨hp, rfl, rfl⟩ | ⟨⟨t, u, ht, hu, hj⟩, rfl, rfl⟩
  · exact ⟨[.star], Cursor.reaches_advance hp, .mul ha hb⟩
  · exact ⟨[.slash], Cursor.reaches_advance hp, .div ha hb⟩
  · exact ⟨[], .refl d, .implied ha hb (hprev ▸ ht) (hhead.trans hu) hj⟩

variable {operator? : Cursor → Option (Operator × Cursor)} {operand : Parser Expr}
  {R S : Nat → List Token → Expr → Prop}

theorem chainTail_sound (hoperand : Sound n R operations operand)
    (hprolongs : Prolongs operator? R S)
    (hR : ∀ {m ts e}, R m ts e → ts ≠ []) (hS : ∀ {m ts e}, S m ts e → ts ≠ []) :
    ∀ (k : Nat) {c₀ c d : Cursor} {lhs e : Expr} {m : Nat} {ts : List Token},
      m ≤ n → S m ts lhs → c₀.Reaches ts lhs.operations c →
      chainTail operator? operand k lhs c = .ok (e, d) →
      ∃ m' ts', m' ≤ n ∧ S m' ts' e ∧ c₀.Reaches ts' e.operations d
  | 0, c₀, c, d, lhs, e, m, ts, hm, hlhs, hreach, h => by
      cases h
      exact ⟨m, ts, hm, hlhs, hreach⟩
  | k + 1, c₀, c, d, lhs, e, m, ts, hm, hlhs, hreach, h => by
      unfold chainTail at h
      split at h
      · cases h
        exact ⟨m, ts, hm, hlhs, hreach⟩
      · rename_i op c₁ hop
        obtain ⟨c₂, hcount, h⟩ := bind_eq_ok_iff.mp h
        obtain ⟨⟨rhs, c₃⟩, hrhs, h⟩ := bind_eq_ok_iff.mp h
        obtain ⟨l, us, hl, hR', hreach₃⟩ := hoperand hrhs
        have hreach₁ := hreach₃.counting hcount
        have hhead : us.head? = c₁.peek? := by
          rw [Cursor.peek?_eq, hreach₁.tokens_eq, List.head?_append,
            List.head?_eq_some_head (hR hR'), Option.some_or]
        obtain ⟨os, hos, hjoined⟩ :=
          hprolongs hlhs (hreach.previous_eq (hS hlhs)) hop hR' hhead
        have hpassed := hos.trans hreach₁
        rw [Nat.zero_add] at hpassed
        exact chainTail_sound hoperand hprolongs hR hS k (Nat.max_le.mpr ⟨hm, hl⟩) hjoined
          (hreach.trans hpassed) h

theorem chain_sound (hoperand : Sound n R operations operand)
    (hprolongs : Prolongs operator? R S) (hone : ∀ {m ts e}, R m ts e → S m ts e)
    (hS : ∀ {m ts e}, S m ts e → ts ≠ []) :
    Sound n S operations (chain operator? operand) := by
  intro c e d h
  obtain ⟨⟨lhs, c₁⟩, hlhs, h⟩ := bind_eq_ok_iff.mp h
  obtain ⟨m, ts, hm, hR, hreach⟩ := hoperand hlhs
  exact chainTail_sound hoperand hprolongs (fun h => hS (hone h)) hS _ hm (hone hR) hreach h

theorem product_sound {signed : Parser Expr}
    (h : Sound n (Grammar.Signed schema) operations signed) :
    Sound n (Grammar.Product schema) operations (product signed) :=
  chain_sound h productOperator?_prolongs .signed Grammar.Product.ne_nil

theorem sum_sound {signed : Parser Expr}
    (h : Sound n (Grammar.Signed schema) operations signed) :
    Sound n (Grammar.Sum schema) operations (sum signed) :=
  chain_sound (product_sound h) sumOperator?_prolongs .product Grammar.Sum.ne_nil

/-! ### Arguments -/

/-- Every success but the empty list is a derivation of height less than `n`, followed by the
closing parenthesis. -/
def SoundArguments (n : Nat) (schema : Schema) (p : Parser (List Expr)) : Prop :=
  ∀ ⦃c args d⦄, p c = .ok (args, d) → args ≠ [] →
    ∃ m ts, m < n ∧ Grammar.Arguments schema m ts args ∧
      c.Reaches (ts ++ [.closing]) (operationsAll args) d

theorem argumentsTail_sound {argument : Parser Expr}
    (hargument : Sound n (Grammar.Sum schema) operations argument) :
    ∀ (k : Nat) {c₀ c d : Cursor} {args args' : List Expr} {m : Nat} {ts : List Token},
      m ≤ n → Grammar.Arguments schema m ts args → c₀.Reaches ts (operationsAll args) c →
      argumentsTail argument k args c = .ok (args', d) →
      ∃ m' ts', m' ≤ n ∧ Grammar.Arguments schema m' ts' args' ∧
        c₀.Reaches (ts' ++ [.closing]) (operationsAll args') d
  | 0, c₀, c, d, args, args', m, ts, hm, hargs, hreach, h => by cases h
  | k + 1, c₀, c, d, args, args', m, ts, hm, hargs, hreach, h => by
      unfold argumentsTail at h
      split at h
      · rename_i hp
        cases h
        exact ⟨m, ts, hm, hargs, hreach.trans (Cursor.reaches_advance hp)⟩
      · rename_i hp
        obtain ⟨⟨a, c₁⟩, ha, h⟩ := bind_eq_ok_iff.mp h
        obtain ⟨l, us, hl, hsum, hreach₁⟩ := hargument ha
        have hk : operationsAll (args ++ [a]) = operationsAll args + a.operations :=
          operationsAll_append args [a]
        refine argumentsTail_sound hargument k (Nat.max_le.mpr ⟨hm, hl⟩) (.more hargs hsum) ?_ h
        rw [hk]
        exact hreach.trans (hreach₁.cons hp)
      · cases h

theorem argumentList_sound {argument : Parser Expr}
    (hargument : Sound n (Grammar.Sum schema) operations argument) :
    SoundArguments (n + 1) schema (argumentList argument) := by
  intro c args d h hne
  unfold argumentList at h
  split at h
  · cases h
    exact absurd rfl hne
  · obtain ⟨⟨a, c₁⟩, ha, h⟩ := bind_eq_ok_iff.mp h
    obtain ⟨m, ts, hm, hsum, hreach⟩ := hargument ha
    obtain ⟨m', ts', hm', hargs, hreach'⟩ := argumentsTail_sound hargument _ hm (.one hsum)
      (by simpa [operationsAll] using hreach) h
    exact ⟨m', ts', by omega, hargs, hreach'⟩

/-! ### Primaries and powers -/

theorem ofName_sound {name : String} {offset : Nat} {e : Expr}
    (h : ofName schema name offset = .ok e) :
    Grammar.Primary schema 0 [.name name] e ∧ e.operations = 0 := by
  unfold ofName at h
  split at h
  · rename_i slot hslot
    cases h
    exact ⟨.var hslot, rfl⟩
  · rename_i hslot
    split at h
    · rename_i hpi
      cases h
      subst hpi
      exact ⟨.pi hslot, rfl⟩
    · split at h
      · rename_i he
        cases h
        subst he
        exact ⟨.e hslot, rfl⟩
      · cases h

theorem ofCall_sound {arguments : Parser (List Expr)} {name : String} {offset : Nat}
    {c d : Cursor} {e : Expr} (harguments : SoundArguments n schema arguments)
    (hc : c.peek? = some .opening) (h : ofCall arguments name offset c = .ok (e, d)) :
    ∃ m ts, m ≤ n ∧ Grammar.Primary schema m (.name name :: ts) e ∧
      c.Reaches ts e.operations d := by
  unfold ofCall at h
  split at h
  · cases h
  · rename_i f hf
    obtain ⟨c₁, hcount, h⟩ := bind_eq_ok_iff.mp h
    obtain ⟨⟨args, c₂⟩, hargs, h⟩ := bind_eq_ok_iff.mp h
    simp only at h
    split at h
    · rename_i hlength
      cases h
      -- no function is without arguments, so the empty list never gets here
      have hne : args ≠ [] := by
        rintro rfl
        exact absurd hlength (Nat.ne_of_lt f.arity_pos)
      obtain ⟨m, ts, hm, hderived, hreach⟩ := harguments hargs hne
      exact ⟨m + 1, .opening :: (ts ++ [.closing]), by omega, .call hf hderived hlength,
        (hreach.counting hcount).cons hc⟩
    · cases h

theorem primary_sound {group : Parser Expr} {arguments : Parser (List Expr)}
    (hgroup : Sound n (Grammar.Sum schema) operations group)
    (harguments : SoundArguments n schema arguments) :
    Sound n (Grammar.Primary schema) operations (primary schema group arguments) := by
  intro c e d h
  unfold primary at h
  split at h
  · rename_i value offset rest hrest
    cases h
    have hp : c.peek? = some (.number value) := by simp [Cursor.peek?, hrest]
    exact ⟨0, _, Nat.zero_le n, .number value, Cursor.reaches_advance hp⟩
  · rename_i offset rest hrest
    have hp : c.peek? = some .opening := by simp [Cursor.peek?, hrest]
    obtain ⟨⟨a, c₁⟩, ha, h⟩ := bind_eq_ok_iff.mp h
    obtain ⟨m, ts, hm, hsum, hreach⟩ := hgroup ha
    simp only at h
    split at h
    · rename_i hclosing
      cases h
      have hpassed := hreach.trans (Cursor.reaches_advance hclosing)
      exact ⟨m, .opening :: (ts ++ [.closing]), hm, .group hsum, hpassed.cons hp⟩
    · cases h
  · rename_i name offset rest hrest
    have hp : c.peek? = some (.name name) := by simp [Cursor.peek?, hrest]
    split at h
    · rename_i hopening
      obtain ⟨m, ts, hm, hprimary, hreach⟩ := ofCall_sound harguments hopening h
      exact ⟨m, _, hm, hprimary, hreach.cons hp⟩
    · cases hname : ofName schema name offset with
      | error error => rw [hname] at h; cases h
      | ok a =>
          rw [hname] at h
          cases h
          obtain ⟨hprimary, hzero⟩ := ofName_sound hname
          exact ⟨0, _, Nat.zero_le n, hprimary, hzero ▸ Cursor.reaches_advance hp⟩
  · cases h

theorem power_sound {primary signed : Parser Expr}
    (hprimary : Sound n (Grammar.Primary schema) operations primary)
    (hsigned : Sound n (Grammar.Signed schema) operations signed) :
    Sound n (Grammar.Power schema) operations (power primary signed) := by
  intro c e d h
  obtain ⟨⟨base, c₁⟩, hbase, h⟩ := bind_eq_ok_iff.mp h
  obtain ⟨m, ts, hm, hp, hreach⟩ := hprimary hbase
  simp only at h
  split at h
  · rename_i hcaret
    obtain ⟨c₂, hcount, h⟩ := bind_eq_ok_iff.mp h
    obtain ⟨⟨exponent, c₃⟩, hexponent, h⟩ := bind_eq_ok_iff.mp h
    obtain ⟨l, us, hl, hs, hreach₃⟩ := hsigned hexponent
    cases h
    have hpassed := (hreach₃.counting hcount).cons hcaret
    exact ⟨max m l, ts ++ .caret :: us, Nat.max_le.mpr ⟨hm, hl⟩, .pow hp hs,
      hreach.trans hpassed⟩
  · cases h
    exact ⟨m, ts, hm, .primary hp, hreach⟩

/-! ### Signed operands and argument lists at every level -/

theorem signed_sound (schema : Schema) : ∀ n : Nat,
    Sound n (Grammar.Signed schema) operations (signed schema n) ∧
      SoundArguments n schema (arguments schema n)
  | 0 => ⟨fun _ _ _ h => (nomatch h), fun _ _ _ h => (nomatch h)⟩
  | n + 1 => by
      obtain ⟨ihsigned, iharguments⟩ := signed_sound schema n
      have hsum := sum_sound ihsigned
      refine ⟨?_, argumentList_sound hsum⟩
      intro c e d h
      unfold signed at h
      split at h
      · rename_i hp
        obtain ⟨c₁, hcount, h⟩ := bind_eq_ok_iff.mp h
        obtain ⟨⟨a, c₂⟩, ha, h⟩ := bind_eq_ok_iff.mp h
        obtain ⟨m, ts, hm, hs, hreach⟩ := ihsigned ha
        cases h
        exact ⟨m + 1, .minus :: ts, by omega, .minus hs, (hreach.counting hcount).cons hp⟩
      · rename_i hp
        obtain ⟨m, ts, hm, hs, hreach⟩ := ihsigned h
        exact ⟨m + 1, .plus :: ts, by omega, .plus hs, hreach.cons hp⟩
      · obtain ⟨m, ts, hm, hpower, hreach⟩ :=
          power_sound (primary_sound hsum iharguments) ihsigned h
        exact ⟨m + 1, ts, by omega, .power hpower, hreach⟩

/-- The empty list of arguments, which is in no derivation, costs nothing. -/
theorem budget_of_arguments_nil {c d : Cursor} (h : arguments schema n c = .ok ([], d)) :
    c.budget = d.budget := by
  cases n with
  | zero => cases h
  | succ n =>
      unfold arguments argumentList at h
      split at h
      · cases h
        unfold Cursor.advance
        split <;> rfl
      · obtain ⟨⟨a, c₁⟩, ha, h⟩ := bind_eq_ok_iff.mp h
        obtain ⟨m, ts, hm, hsum, hreach⟩ := sum_sound (signed_sound schema n).1 ha
        obtain ⟨m', ts', -, hargs, -⟩ := argumentsTail_sound (sum_sound (signed_sound schema n).1) _
          hm (.one hsum) (by simpa [operationsAll] using hreach) h
        exact absurd rfl hargs.args_ne_nil

/-- What the parser accepts is derived by the grammar within the limits. -/
theorem derived_of_ofTokens {tokens : List Placed} {e : Expr}
    (h : ofTokens schema tokens = .ok e) :
    ∃ m ≤ maxDepth, Grammar.Sum schema m (tokens.map Placed.token) e ∧
      e.operations ≤ maxOperations := by
  unfold ofTokens at h
  split at h
  · cases h
  · obtain ⟨⟨a, c⟩, ha, h⟩ := bind_eq_ok_iff.mp h
    obtain ⟨m, ts, hm, hsum, hreach⟩ := sum_sound (signed_sound schema maxDepth).1 ha
    simp only at h
    split at h
    · rename_i hrest
      cases h
      have htokens := hreach.tokens_eq
      have hbudget := hreach.budget
      simp only [Cursor.tokens, Cursor.ofTokens, List.isEmpty_iff.mp hrest, List.map_nil,
        List.append_nil] at htokens
      simp only [Cursor.ofTokens] at hbudget
      exact ⟨m, hm, htokens ▸ hsum, by omega⟩
    · cases h

end Expr

end PenFilter
