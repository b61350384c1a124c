import PenFilter.Proofs.Formula.Soundness
import PenFilter.Proofs.Formula.Tally

/-! # A tally does what the limits do

A tally with `n` levels left is the cursor at its place with what is left of the limits
(`Tally.cursor`), and from it a reader does what the parser does: both succeed with the same, in
matching places and with as many levels left, or both fail alike (`Tally.Follows`).

`Tally.Matches` relates the two results, with one rule for each step.  The readers follow the
parsers one by one, and `Tally.follows_signed` ties the knot by induction on the bound, which is
enough where it exceeds the number of tokens that are left. -/

namespace PenFilter

namespace Tally

variable {tokens : List Placed} {b : Tally} {k l n : Nat} {α β : Type}

/-! ### Tallies and cursors -/

/-- The cursor at the place of a tally. -/
def cursor (tokens : List Placed) (b : Tally) : Cursor :=
  ⟨b.previous? tokens, tokens.drop b.position, maxOperations - b.operations⟩

/-- A tally in the tokens and within the limits, with `n` levels left. -/
structure Within (tokens : List Placed) (n : Nat) (b : Tally) : Prop where
  position_le : b.position ≤ tokens.length
  depth_eq : b.depth + n = maxDepth
  operations_le : b.operations ≤ maxOperations

theorem peek?_cursor : (b.cursor tokens).peek? = b.peek? tokens := by
  rw [Cursor.peek?, cursor, List.head?_drop]
  rfl

theorem rest_of_next?_eq_some {t : Placed} (h : b.next? tokens = some t) :
    b.position < tokens.length ∧
      (b.cursor tokens).rest = t :: tokens.drop (b.position + 1) := by
  obtain ⟨hlt, rfl⟩ := List.getElem?_eq_some_iff.mp h
  exact ⟨hlt, List.drop_eq_getElem_cons hlt⟩

theorem rest_of_next?_eq_none (h : b.next? tokens = none) : (b.cursor tokens).rest = [] :=
  List.drop_eq_nil_of_le (List.getElem?_eq_none_iff.mp h)

theorem cursor_next (h : b.position < tokens.length) :
    b.next.cursor tokens = (b.cursor tokens).advance := by
  have hrest := List.drop_eq_getElem_cons h
  simp only [Cursor.advance, cursor, hrest, next, previous?, List.getElem?_eq_getElem h,
    Option.map_some]

theorem lt_of_peek? {t : Token} (h : b.peek? tokens = some t) : b.position < tokens.length := by
  obtain ⟨p, hp, -⟩ := Option.map_eq_some_iff.mp h
  exact (rest_of_next?_eq_some hp).1

theorem Within.next (h : b.Within tokens n) (hlt : b.position < tokens.length) :
    b.next.Within tokens n :=
  ⟨hlt, h.depth_eq, h.operations_le⟩

/-! ### Steps -/

@[simp] theorem get_bind (f : Tally → Reader β) : ((get : Reader Tally) >>= f) b = f b b := rfl

@[simp] theorem modify_bind (g : Tally → Tally) (f : Unit → Reader β) :
    ((modify g : Reader Unit) >>= f) b = f () (g b) := rfl

@[simp] theorem skip_bind (f : Unit → Reader β) : (skip >>= f) b = f () b.next := rfl

@[simp] theorem advance_bind (f : Option Placed → Reader β) :
    (advance tokens >>= f) b =
      f (b.next? tokens) (if (b.next? tokens).isSome then b.next else b) := by
  rw [advance, bind_assoc, get_bind]
  cases h : b.next? tokens <;> rfl

theorem bind_of_ok {p : Reader α} {a : α} {b' : Tally} (h : p b = some (.ok a, b'))
    (f : α → Reader β) : (p >>= f) b = f a b' := by
  show (p b).bind _ = _
  rw [h]
  rfl

theorem bind_of_error {p : Reader α} {e : ParseError} {b' : Tally}
    (h : p b = some (.error e, b')) (f : α → Reader β) : (p >>= f) b = some (.error e, b') := by
  show (p b).bind _ = _
  rw [h]
  rfl

/-- A reader answers what the parser does.  A success is at place `l` or behind it with `n` levels
left; an error has at least as many levels open. -/
inductive Matches (tokens : List Placed) (n l : Nat) :
    Option (Except ParseError α × Tally) → Except ParseError (α × Cursor) → Prop
  | ok {a : α} {b : Tally} (within : b.Within tokens n) (le : l ≤ b.position) :
    Matches tokens n l (some (.ok a, b)) (.ok (a, b.cursor tokens))
  | error {e : ParseError} {b : Tally} (le : maxDepth ≤ b.depth + n) :
    Matches tokens n l (some (.error e, b)) (.error e)

theorem Within.throws {e : ParseError} {x : Except ParseError (α × Cursor)}
    (h : b.Within tokens n) (hx : x = .error e) :
    Matches tokens n l (some (.error e, b)) x :=
  hx ▸ .error (Nat.le_of_eq h.depth_eq.symm)

theorem Matches.mono {r : Option (Except ParseError α × Tally)}
    {x : Except ParseError (α × Cursor)} {m : Nat} (h : Matches tokens n m r x) (hl : l ≤ m) :
    Matches tokens n l r x := by
  cases h with
  | ok within le => exact .ok within (Nat.le_trans hl le)
  | error le => exact .error le

theorem Matches.bind {p : Reader α} {x : Except ParseError (α × Cursor)} {f : α → Reader β}
    {g : α × Cursor → Except ParseError (β × Cursor)} {m : Nat}
    (h : Matches tokens n m (p b) x)
    (hf : ∀ a b', b'.Within tokens n → m ≤ b'.position →
      Matches tokens n l (f a b') (g (a, b'.cursor tokens))) :
    Matches tokens n l ((p >>= f) b) (x >>= g) := by
  generalize hp : p b = r at h
  cases h with
  | ok within le =>
      rw [bind_of_ok hp]
      exact hf _ _ within le
  | error le =>
      rw [bind_of_error hp]
      exact .error le

theorem count_of_lt (h : b.operations < maxOperations) :
    Tally.count b = some (.ok (), b.counted) := by
  have hle : ¬ maxOperations < b.counted.operations := Nat.not_lt.mpr h
  rw [Tally.count, modify_bind, get_bind, if_neg hle]
  rfl

theorem count_of_le (h : maxOperations ≤ b.operations) :
    Tally.count b = some (.error .tooLarge, b.counted) := by
  have hlt : maxOperations < b.counted.operations := Nat.lt_succ_of_le h
  rw [Tally.count, modify_bind, get_bind, if_pos hlt]
  rfl

theorem matches_count {f : Unit → Reader β} {g : Cursor → Except ParseError (β × Cursor)}
    (hb : b.Within tokens n)
    (hf : b.counted.Within tokens n → Matches tokens n l (f () b.counted)
      (g (b.counted.cursor tokens))) :
    Matches tokens n l ((count >>= f) b) ((b.cursor tokens).count >>= g) := by
  by_cases hlt : b.operations < maxOperations
  · have hbudget : maxOperations - b.operations = (maxOperations - (b.operations + 1)) + 1 := by
      omega
    have hcursor : (b.cursor tokens).count = .ok (b.counted.cursor tokens) := by
      simp only [Cursor.count, cursor, hbudget]
      rfl
    rw [bind_of_ok (count_of_lt hlt), hcursor]
    exact hf ⟨hb.position_le, hb.depth_eq, hlt⟩
  · have hbudget : maxOperations - b.operations = 0 := by omega
    have hcursor : (b.cursor tokens).count = .error .tooLarge := by
      simp only [Cursor.count, cursor, hbudget]
    rw [bind_of_error (count_of_le (Nat.not_lt.mp hlt)), hcursor]
    exact .error (Nat.le_of_eq hb.depth_eq.symm)

/-! ### Levels -/

theorem enter_of_lt (h : b.depth < maxDepth) : enter b = some (.ok (), b.opened) := by
  have hle : ¬ maxDepth < b.opened.depth := Nat.not_lt.mpr h
  rw [enter, modify_bind, get_bind, if_neg hle]
  rfl

theorem enter_of_le (h : maxDepth ≤ b.depth) : enter b = some (.error .tooDeep, b.opened) := by
  have hlt : maxDepth < b.opened.depth := Nat.lt_succ_of_le h
  rw [enter, modify_bind, get_bind, if_pos hlt]
  rfl

theorem exists_opened (h : 0 < b.depth) : ∃ d : Tally, b = d.opened := by
  obtain ⟨position, depth, operations⟩ := b
  obtain ⟨d, rfl⟩ := Nat.exists_eq_succ_of_ne_zero (Nat.ne_of_gt h)
  exact ⟨⟨position, d, operations⟩, rfl⟩

theorem within_opened_iff : b.opened.Within tokens n ↔ b.Within tokens (n + 1) := by
  constructor
  · rintro ⟨hposition, hdepth, hoperations⟩
    rw [depth_opened] at hdepth
    exact ⟨hposition, by omega, hoperations⟩
  · rintro ⟨hposition, hdepth, hoperations⟩
    exact ⟨hposition, by rw [depth_opened]; omega, hoperations⟩

theorem Within.exists_opened (h : b.Within tokens n) (hn : n < maxDepth) :
    ∃ d : Tally, b = d.opened ∧ d.Within tokens (n + 1) := by
  have hdepth := h.depth_eq
  obtain ⟨d, rfl⟩ := Tally.exists_opened (b := b) (by omega)
  exact ⟨d, rfl, within_opened_iff.mp h⟩

theorem onLevel_of_opened {p : Reader Expr} {r : Except ParseError Expr} {d : Tally}
    (hb : b.depth < maxDepth) (h : p b.opened = some (r, d.opened)) :
    onLevel p b = some (r, d) := by
  show (enter b).bind _ = _
  rw [enter_of_lt hb]
  show (p b.opened).bind _ = _
  rw [h]
  rfl

theorem onLevel_of_le {p : Reader Expr} (h : maxDepth ≤ b.depth) :
    onLevel p b = some (.error .tooDeep, b.opened) := by
  show (enter b).bind _ = _
  rw [enter_of_le h]
  rfl

/-- What a level of its own does to a reader is to take one level from the parser. -/
theorem matches_onLevel {p : Reader Expr} {x : Except ParseError (Expr × Cursor)}
    (hb : b.Within tokens (n + 1)) (h : Matches tokens n l (p b.opened) x) :
    Matches tokens (n + 1) l (onLevel p b) x := by
  have hdepth := hb.depth_eq
  have hlt : b.depth < maxDepth := by omega
  generalize hp : p b.opened = r at h
  cases h with
  | ok within le =>
      obtain ⟨d, rfl, hd⟩ := within.exists_opened (by omega)
      rw [onLevel_of_opened hlt hp]
      exact .ok hd le
  | @error e b' le =>
      -- some levels may be open behind an error, but the one to leave is among them
      obtain ⟨d, rfl⟩ : ∃ d : Tally, b' = d.opened := exists_opened (by omega)
      rw [onLevel_of_opened hlt hp]
      rw [depth_opened] at le
      exact .error (by omega)

/-! ### Readers and parsers -/

/-- From every tally with `n` levels left and fewer than `k` tokens the reader does what the parser
does, and where it succeeds it has passed over a token. -/
def Follows (tokens : List Placed) (k n : Nat) (p : Reader α) (q : Parser α) : Prop :=
  ∀ ⦃b : Tally⦄, b.Within tokens n → tokens.length < b.position + k →
    Matches tokens n (b.position + 1) (p b) (q (b.cursor tokens))

theorem Follows.counted {p : Reader α} {q : Parser α} {f : α → Reader β}
    {g : α × Cursor → Except ParseError (β × Cursor)} (h : Follows tokens k n p q)
    (hb : b.Within tokens n) (hlt : b.position < tokens.length)
    (hk : tokens.length < b.position + (k + 1))
    (hf : ∀ a b', b'.Within tokens n → b.position < b'.position →
      Matches tokens n l (f a b') (g (a, b'.cursor tokens))) :
    Matches tokens n l ((do skip; count; let a ← p; f a) b)
      (do let c ← (b.cursor tokens).advance.count; let r ← q c; g r) := by
  rw [skip_bind, ← cursor_next hlt]
  refine matches_count (hb.next hlt) fun hcounted => ?_
  have hplace : b.next.counted.position = b.position + 1 := rfl
  refine (h hcounted (by omega)).bind fun a b' hb' hpassed => ?_
  exact hf a b' hb' (by omega)

/-- The operator of a chain is found where the parser finds it, and only before a token. -/
def Finds (tokens : List Placed) (operator : Reader (Option Operator))
    (operator? : Cursor → Option (Operator × Cursor)) : Prop :=
  ∀ ⦃n : Nat⦄ ⦃b : Tally⦄, b.Within tokens n →
    operator? (b.cursor tokens) = none ∧ operator b = some (.ok none, b) ∨
      ∃ op d, operator? (b.cursor tokens) = some (op, d.cursor tokens) ∧
        operator b = some (.ok (some op), d) ∧ d.Within tokens n ∧
        b.position ≤ d.position ∧ b.position < tokens.length

theorem finds_sumOperator : Finds tokens (sumOperator tokens) Cursor.sumOperator? := by
  intro n b hb
  rw [sumOperator, get_bind, Cursor.sumOperator?, peek?_cursor]
  cases hp : b.peek? tokens with
  | none => exact .inl ⟨rfl, rfl⟩
  | some t =>
      have hlt := lt_of_peek? hp
      rw [← cursor_next hlt]
      cases t with
      | plus => exact .inr ⟨.add, b.next, rfl, rfl, hb.next hlt, Nat.le_succ _, hlt⟩
      | minus => exact .inr ⟨.sub, b.next, rfl, rfl, hb.next hlt, Nat.le_succ _, hlt⟩
      | _ => exact .inl ⟨rfl, rfl⟩

theorem finds_productOperator : Finds tokens (productOperator tokens) Cursor.productOperator? := by
  intro n b hb
  have hprevious : (b.cursor tokens).previous = b.previous? tokens := rfl
  rw [productOperator, get_bind, Cursor.productOperator?, peek?_cursor, hprevious]
  cases hp : b.peek? tokens with
  | none =>
      dsimp only
      split
      · rename_i himplied
        obtain ⟨t, u, -, hu, -⟩ := Cursor.impliesProduct_iff.mp himplied
        cases hu
      · exact .inl ⟨rfl, rfl⟩
  | some t =>
      have hlt := lt_of_peek? hp
      rw [← cursor_next hlt]
      cases t with
      | star => exact .inr ⟨.mul, b.next, rfl, rfl, hb.next hlt, Nat.le_succ _, hlt⟩
      | slash => exact .inr ⟨.div, b.next, rfl, rfl, hb.next hlt, Nat.le_succ _, hlt⟩
      | _ =>
          dsimp only
          split
          · exact .inr ⟨.mul, b, rfl, rfl, hb, Nat.le_refl _, hlt⟩
          · exact .inl ⟨rfl, rfl⟩

section

variable {operator : Reader (Option Operator)} {operand : Reader Expr}
  {operator? : Cursor → Option (Operator × Cursor)} {operand' : Parser Expr}

/-- The two tails have bounds of their own, and each is enough for the tokens that are left. -/
theorem follows_chainTail (hoperator : Finds tokens operator operator?)
    (hoperand : Follows tokens k n operand operand') :
    ∀ (m r : Nat) (lhs : Expr) (b : Tally), b.Within tokens n →
      tokens.length < b.position + k → tokens.length < b.position + m →
      tokens.length ≤ b.position + r →
      Matches tokens n b.position (chainTail operator operand m lhs b)
        (Expr.chainTail operator? operand' r lhs (b.cursor tokens))
  | 0, r, lhs, b, hb, hk, hm, hr => by
      have := hb.position_le
      omega
  | m + 1, r, lhs, b, hb, hk, hm, hr => by
      rw [chainTail]
      rcases hoperator hb with ⟨hnone, hrun⟩ | ⟨op, d, hsome, hrun, hd, hle, hlt⟩
      · rw [bind_of_ok hrun]
        cases r with
        | zero => exact .ok hb (Nat.le_refl _)
        | succ r =>
            rw [Expr.chainTail, hnone]
            exact .ok hb (Nat.le_refl _)
      · -- the operator stands before a token, so that the parser's bound is not used up
        obtain ⟨r, rfl⟩ : ∃ s, r = s + 1 := ⟨r - 1, by omega⟩
        rw [bind_of_ok hrun, Expr.chainTail, hsome]
        refine matches_count hd fun hcounted => ?_
        refine (hoperand hcounted (by rw [position_counted]; omega)).bind ?_
        intro rhs b' hb' hpassed
        rw [position_counted] at hpassed
        refine (follows_chainTail hoperator hoperand m r _ b' hb' ?_ ?_ ?_).mono ?_ <;> omega

theorem follows_chain (hoperator : Finds tokens operator operator?)
    (hoperand : Follows tokens k n operand operand') :
    Follows tokens k n (chain operator operand k) (Expr.chain operator? operand') := by
  intro b hb hk
  refine (hoperand hb hk).bind fun lhs b' hb' hpassed => ?_
  have hrest : (b'.cursor tokens).rest.length = tokens.length - b'.position := List.length_drop
  refine (follows_chainTail hoperator hoperand k _ lhs b' hb' ?_ ?_ ?_).mono hpassed <;> omega

end

theorem Follows.product {signed : Reader Expr} {signed' : Parser Expr}
    (h : Follows tokens k n signed signed') :
    Follows tokens k n (product tokens k signed) (Expr.product signed') :=
  follows_chain finds_productOperator h

theorem Follows.sum {signed : Reader Expr} {signed' : Parser Expr}
    (h : Follows tokens k n signed signed') :
    Follows tokens k n (sum tokens k signed) (Expr.sum signed') :=
  follows_chain finds_sumOperator h.product

/-! ### Arguments -/

section

variable {argument : Reader Expr} {argument' : Parser Expr}

theorem follows_argumentsTail (h : Follows tokens k n argument argument') :
    ∀ (m r : Nat) (args : List Expr) (b : Tally), b.Within tokens n →
      tokens.length < b.position + k → tokens.length < b.position + m →
      tokens.length ≤ b.position + r →
      Matches tokens n (b.position + 1) (argumentsTail tokens argument m args b)
        (Expr.argumentsTail argument' r args (b.cursor tokens))
  | 0, r, args, b, hb, hk, hm, hr => by
      have := hb.position_le
      omega
  | m + 1, r, args, b, hb, hk, hm, hr => by
      rw [argumentsTail, advance_bind]
      cases hnext : b.next? tokens with
      | none =>
          have hrest := rest_of_next?_eq_none hnext
          have hend : Expr.argumentsTail argument' r args (b.cursor tokens) =
              .error (.unexpectedEnd .commaOrClosing) := by
            cases r <;> simp [Expr.argumentsTail, Cursor.unexpected, Cursor.peek?, hrest]
          exact hb.throws hend
      | some t =>
          obtain ⟨token, offset⟩ := t
          obtain ⟨hlt, hrest⟩ := rest_of_next?_eq_some hnext
          obtain ⟨r, rfl⟩ : ∃ s, r = s + 1 := ⟨r - 1, by omega⟩
          have hpeek : (b.cursor tokens).peek? = some token := by rw [Cursor.peek?, hrest]; rfl
          rw [Expr.argumentsTail, hpeek, ← cursor_next hlt, Cursor.unexpected, hrest]
          cases token with
          | comma =>
              refine (h (hb.next hlt) (by rw [position_next]; omega)).bind ?_
              intro a b' hb' hpassed
              rw [position_next] at hpassed
              refine (follows_argumentsTail h m r _ b' hb' ?_ ?_ ?_).mono ?_ <;> omega
          | closing => exact .ok (hb.next hlt) (Nat.le_refl _)
          | _ => exact (hb.next hlt).throws rfl

theorem Follows.argumentList (h : Follows tokens k n argument argument') :
    Follows tokens k n (argumentList tokens k argument) (Expr.argumentList argument') := by
  intro b hb hk
  rw [Tally.argumentList, get_bind, Expr.argumentList, peek?_cursor]
  by_cases hp : b.peek? tokens = some .closing
  · have hlt := lt_of_peek? hp
    rw [if_pos hp, hp, ← cursor_next hlt]
    exact .ok (hb.next hlt) (Nat.le_refl _)
  · rw [if_neg hp]
    have hfollows : Matches tokens n (b.position + 1)
        ((argument >>= fun a => argumentsTail tokens argument k [a]) b)
        (argument' (b.cursor tokens) >>= fun r =>
          Expr.argumentsTail argument' r.2.rest.length [r.1] r.2) := by
      refine (h hb hk).bind fun a b' hb' hpassed => ?_
      dsimp only
      have hrest : (b'.cursor tokens).rest.length = tokens.length - b'.position := List.length_drop
      refine (follows_argumentsTail h k _ [a] b' hb' ?_ ?_ ?_).mono ?_ <;> omega
    split
    · exact absurd ‹_› hp
    · exact hfollows

theorem matches_arguments {x : Except ParseError (List Expr × Cursor)}
    (hb : b.Within tokens (n + 1))
    (h : Matches tokens n l (argumentList tokens k argument b.opened) x) :
    Matches tokens (n + 1) l (arguments tokens k argument b) x := by
  have hdepth := hb.depth_eq
  rw [arguments, bind_of_ok (enter_of_lt (by omega))]
  generalize hp : argumentList tokens k argument b.opened = r at h
  cases h with
  | ok within le =>
      obtain ⟨d, rfl, hd⟩ := within.exists_opened (by omega)
      rw [bind_of_ok hp]
      exact .ok hd le
  | error le =>
      rw [bind_of_error hp]
      exact .error (by omega)

theorem follows_arguments {schema : Schema}
    (h : ∀ n, Follows tokens k n argument (Expr.sum (Expr.signed schema n))) :
    ∀ n, Follows tokens k n (arguments tokens k argument) (Expr.arguments schema n)
  | 0 => by
      intro b hb hk
      have hdepth := hb.depth_eq
      rw [arguments, bind_of_error (enter_of_le (by omega)), Expr.arguments]
      exact .error (by rw [depth_opened]; omega)
  | n + 1 => by
      intro b hb hk
      rw [Expr.arguments]
      exact matches_arguments hb ((h n).argumentList (within_opened_iff.mpr hb) hk)

end

/-! ### Primaries and powers -/

section

variable {group signed : Reader Expr} {group' signed' : Parser Expr}
  {args : Reader (List Expr)} {args' : Parser (List Expr)}

theorem matches_expect {e : Expr} (hb : b.Within tokens n) (hl : l ≤ b.position + 1) :
    Matches tokens n l ((do expect tokens .closing .closing; return e : Reader Expr) b)
      (if (b.cursor tokens).peek? = some .closing then .ok (e, (b.cursor tokens).advance)
        else .error ((b.cursor tokens).unexpected .closing)) := by
  rw [expect, bind_assoc, advance_bind]
  cases hnext : b.next? tokens with
  | none =>
      have hrest := rest_of_next?_eq_none hnext
      have hend : (if (b.cursor tokens).peek? = some .closing then
          Except.ok (e, (b.cursor tokens).advance)
          else .error ((b.cursor tokens).unexpected .closing)) =
            .error (.unexpectedEnd .closing) := by
        simp [Cursor.peek?, Cursor.unexpected, hrest]
      exact hb.throws hend
  | some t =>
      obtain ⟨hlt, hrest⟩ := rest_of_next?_eq_some hnext
      have hpeek : (b.cursor tokens).peek? = some t.token := by rw [Cursor.peek?, hrest]; rfl
      simp only [hpeek, Option.some.injEq, ← cursor_next hlt, Cursor.unexpected, hrest]
      split
      · exact .ok (hb.next hlt) hl
      · exact (hb.next hlt).throws rfl

theorem matches_named (schema : Schema) {name : String} {offset : Nat}
    (hargs : Follows tokens k n args args') (hb : b.Within tokens n)
    (hk : tokens.length < b.position + k) :
    Matches tokens n b.position (named schema tokens args name offset b)
      (if (b.cursor tokens).peek? = some .opening then
        Expr.ofCall args' name offset (b.cursor tokens)
      else (Expr.ofName schema name offset).map fun e => (e, b.cursor tokens)) := by
  rw [named, get_bind, peek?_cursor]
  by_cases hp : b.peek? tokens = some .opening
  · have hlt := lt_of_peek? hp
    rw [if_pos hp, if_pos hp, Expr.ofCall]
    cases Builtin.ofName? name with
    | none => exact hb.throws rfl
    | some f =>
        refine hargs.counted hb hlt (by omega) fun es b' hb' hpassed => ?_
        dsimp only
        split
        · exact .ok hb' (Nat.le_of_lt hpassed)
        · exact hb'.throws rfl
  · rw [if_neg hp, if_neg hp]
    cases Expr.ofName schema name offset with
    | error e => exact hb.throws rfl
    | ok e => exact .ok hb (Nat.le_refl _)

theorem follows_primary (schema : Schema) (hgroup : Follows tokens k n group group')
    (hargs : Follows tokens k n args args') :
    Follows tokens (k + 1) n (primary schema tokens group args)
      (Expr.primary schema group' args') := by
  intro b hb hk
  rw [primary, advance_bind, Expr.primary]
  cases hnext : b.next? tokens with
  | none =>
      rw [Cursor.unexpected, rest_of_next?_eq_none hnext]
      exact hb.throws rfl
  | some t =>
      obtain ⟨token, offset⟩ := t
      obtain ⟨hlt, hrest⟩ := rest_of_next?_eq_some hnext
      rw [Cursor.unexpected, hrest, ← cursor_next hlt]
      have hk' : tokens.length < b.next.position + k := by rw [position_next]; omega
      cases token with
      | number value => exact .ok (hb.next hlt) (Nat.le_refl _)
      | opening =>
          refine (hgroup (hb.next hlt) hk').bind fun e b' hb' hpassed => ?_
          rw [position_next] at hpassed
          exact matches_expect hb' (by omega)
      | name name => exact matches_named schema hargs (hb.next hlt) hk'
      | _ => exact (hb.next hlt).throws rfl

theorem follows_power {base : Reader Expr} {base' : Parser Expr}
    (hbase : Follows tokens (k + 1) n base base') (hsigned : Follows tokens k n signed signed') :
    Follows tokens (k + 1) n (power tokens base signed) (Expr.power base' signed') := by
  intro b hb hk
  refine (hbase hb hk).bind fun e b' hb' hpassed => ?_
  dsimp only
  rw [get_bind, peek?_cursor]
  by_cases hp : b'.peek? tokens = some .caret
  · have hlt := lt_of_peek? hp
    rw [if_pos hp, if_pos hp]
    refine hsigned.counted hb' hlt (by omega) fun exponent b'' hb'' hpassed' => ?_
    exact .ok hb'' (by omega)
  · rw [if_neg hp, if_neg hp]
    exact .ok hb' hpassed

theorem follows_withSign {power : Reader Expr} {power' : Parser Expr}
    (hpower : Follows tokens (k + 1) n power power') (hsigned : Follows tokens k n signed signed') :
    Follows tokens (k + 1) n (withSign tokens power signed) fun c =>
      match c.peek? with
      | some .minus => do
        let c ← c.advance.count
        let (e, c) ← signed' c
        .ok (.neg e, c)
      | some .plus => signed' c.advance
      | _ => power' c := by
  intro b hb hk
  dsimp only
  rw [withSign, get_bind, peek?_cursor]
  cases hp : b.peek? tokens with
  | none => exact hpower hb hk
  | some t =>
      have hlt := lt_of_peek? hp
      cases t with
      | minus => exact hsigned.counted hb hlt hk fun e b' hb' hpassed => .ok hb' hpassed
      | plus =>
          rw [← cursor_next hlt]
          refine (hsigned (hb.next hlt) ?_).mono ?_ <;> (rw [position_next]; omega)
      | _ => exact hpower hb hk

end

/-! ### Signed operands -/

/-- A signed operand takes at least one token before it comes to the next one, so a bound above the
number of tokens left is enough; the limits are left to the counts. -/
theorem follows_signed (schema : Schema) (tokens : List Placed) :
    ∀ k n, Follows tokens k n (signed schema tokens k) (Expr.signed schema n)
  | 0, n => by
      intro b hb hk
      have := hb.position_le
      omega
  | k + 1, 0 => by
      intro b hb hk
      have hdepth := hb.depth_eq
      rw [signed, Expr.signed, onLevel_of_le (by omega)]
      exact .error (by rw [depth_opened]; omega)
  | k + 1, n + 1 => by
      intro b hb hk
      have hsigned := follows_signed schema tokens k n
      have hargs := follows_arguments fun n => (follows_signed schema tokens k n).sum
      have hpower := follows_power (follows_primary schema hsigned.sum (hargs n)) hsigned
      rw [signed, Expr.signed]
      exact matches_onLevel hb (follows_withSign hpower hsigned (within_opened_iff.mpr hb) hk)

end Tally

end PenFilter
