import PenFilter.Proofs.Formula.Depth
import PenFilter.Proofs.Formula.Leaves
import PenFilter.Proofs.Formula.Resolution

/-! # Reading a tree back from its text

The text of a tree is cut into the tokens of the tree (`Expr.scans_display`), and these spell the
tree (`Expr.spelled_of_wellFormed`): every operator stands in parentheses of its own, so that
neither precedence nor a product without a sign can join what does not belong together.  The
parentheses cost levels, at most two for each sign, operator or call on the way to a leaf.

The leaves of a tree that was read are written in a way that can be read (`Expr.leaves_of_parse`,
`Binary.read?_text`).  So reading the text of such a tree gives the tree again, or fails because the
parentheses nest too deep (`Expr.parse_text`); that it can fail, and how soon, is seen on chains of
minus signs (`Expr.parse_text_iterate_neg`). -/

namespace PenFilter

/-! ### Depth and tokens of a tree -/

/-- The token that an operator is written as. -/
def Operator.token : Operator → Token
  | add => .plus
  | sub => .minus
  | mul => .star
  | div => .slash
  | pow => .caret

namespace Expr

mutual

/-- The greatest number of signs, operators and calls on the way to a leaf. -/
def depth : Expr → Nat
  | number _ => 0
  | var _ _ => 0
  | neg a => depth a + 1
  | binary _ a b => max (depth a) (depth b) + 1
  | call _ args => depthAll args + 1

def depthAll : List Expr → Nat
  | [] => 0
  | a :: as => max (depth a) (depthAll as)

end

mutual

/-- The tokens of a tree with all its parentheses. -/
def tokens : Expr → List Token
  | number value => [.number value]
  | var name _ => [.name name]
  | neg a => .opening :: .minus :: (tokens a ++ [.closing])
  | binary op a b => .opening :: (tokens a ++ op.token :: tokens b ++ [.closing])
  | call f args => .name f.name :: .opening :: (tokensAll args ++ [.closing])

/-- The tokens of a list of trees with commas between them. -/
def tokensAll : List Expr → List Token
  | [] => []
  | [a] => tokens a
  | a :: as => tokens a ++ .comma :: tokensAll as

end

theorem tokensAll_cons (a : Expr) (as : List Expr) :
    tokensAll (a :: as) = tokens a ++ as.flatMap fun b => .comma :: tokens b := by
  induction as generalizing a with
  | nil => simp [tokensAll]
  | cons b as ih =>
      rw [tokensAll, ih, List.flatMap_cons, List.cons_append]
      exact nofun

/-! ### The tokens of a tree spell the tree -/

variable {schema : Schema}

theorem WellFormed.of_binary {op : Operator} {a b : Expr}
    (h : (Expr.binary op a b).WellFormed schema) : a.WellFormed schema ∧ b.WellFormed schema := by
  obtain ⟨hsat, hres⟩ := h
  obtain ⟨hsata, hsatb⟩ := Bool.and_eq_true_iff.mp hsat
  exact ⟨⟨hsata, fun p hp => hres p (List.mem_append_left _ hp)⟩,
    ⟨hsatb, fun p hp => hres p (List.mem_append_right _ hp)⟩⟩

theorem WellFormed.of_call {f : Builtin} {args : List Expr}
    (h : (Expr.call f args).WellFormed schema) :
    args.length = f.arity ∧ ∀ a ∈ args, a.WellFormed schema := by
  obtain ⟨hlength, hsat⟩ := Bool.and_eq_true_iff.mp h.saturated
  exact ⟨beq_iff_eq.mp hlength, wellFormed_of_all hsat h.resolved⟩

/-- The tokens spell the tree as a primary, with at most two levels for each operator and call on
the way to a leaf. -/
def Spelled (schema : Schema) (e : Expr) : Prop :=
  ∃ n ≤ 2 * e.depth, Grammar.Primary schema n e.tokens e

/-- A sign takes two levels, one for its operand and one for its parentheses. -/
theorem primary_neg {a : Expr} {n : Nat} (h : Grammar.Primary schema n a.tokens a) :
    Grammar.Primary schema (n + 2) (neg a).tokens (neg a) :=
  .group (.product (.signed (.minus (.power (.primary h)))))

theorem spelled_binary {op : Operator} {a b : Expr} (ha : a.Spelled schema)
    (hb : b.Spelled schema) : (binary op a b).Spelled schema := by
  obtain ⟨m, hm, ha⟩ := ha
  obtain ⟨n, hn, hb⟩ := hb
  have hlhs : Grammar.Signed schema (m + 1) a.tokens a := .power (.primary ha)
  have hrhs : Grammar.Signed schema (n + 1) b.tokens b := .power (.primary hb)
  simp only [Spelled, depth]
  cases op with
  | add => exact ⟨_, by omega, .group (.add (.product (.signed hlhs)) (.signed hrhs))⟩
  | sub => exact ⟨_, by omega, .group (.sub (.product (.signed hlhs)) (.signed hrhs))⟩
  | mul => exact ⟨_, by omega, .group (.product (.mul (.signed hlhs) hrhs))⟩
  | div => exact ⟨_, by omega, .group (.product (.div (.signed hlhs) hrhs))⟩
  | pow => exact ⟨_, by omega, .group (.product (.signed (.power (.pow ha hrhs))))⟩

theorem exists_more_arguments {as : List Expr} (has : ∀ a ∈ as, a.Spelled schema) {m : Nat}
    {ts : List Token} {bs : List Expr} (hbs : Grammar.Arguments schema m ts bs) :
    ∃ n ≤ max m (2 * depthAll as + 1),
      Grammar.Arguments schema n (ts ++ as.flatMap fun a => .comma :: a.tokens) (bs ++ as) := by
  induction as generalizing m ts bs with
  | nil => exact ⟨m, by omega, by simpa using hbs⟩
  | cons a as ih =>
      rw [List.forall_mem_cons] at has
      obtain ⟨⟨k, hk, ha⟩, has⟩ := has
      have hmore := hbs.more (.product (.signed (.power (.primary ha))))
      obtain ⟨n, hn, hall⟩ := ih has hmore
      refine ⟨n, ?_, ?_⟩
      · rw [depthAll]
        omega
      · simpa using hall

theorem spelled_call {f : Builtin} {args : List Expr} (hlength : args.length = f.arity)
    (hargs : ∀ a ∈ args, a.Spelled schema) : (call f args).Spelled schema := by
  cases args with
  | nil => exact absurd hlength f.arity_pos.ne
  | cons a as =>
      rw [List.forall_mem_cons] at hargs
      obtain ⟨⟨k, hk, ha⟩, has⟩ := hargs
      obtain ⟨n, hn, hall⟩ :=
        exists_more_arguments has (.one (.product (.signed (.power (.primary ha)))))
      refine ⟨n + 1, ?_, ?_⟩
      · rw [depth, depthAll]
        omega
      · rw [tokens, tokensAll_cons]
        exact .call f.ofName?_name hall hlength

/-- **The tokens of a tree spell the tree**, if its calls are saturated and its variables have
their slots. -/
theorem spelled_of_wellFormed {e : Expr} (h : e.WellFormed schema) : e.Spelled schema := by
  match e with
  | number value => exact ⟨0, Nat.zero_le _, .number value⟩
  | var name slot =>
      exact ⟨0, Nat.zero_le _, .var (h.resolved (name, slot) (by simp [occurrences]))⟩
  | neg a =>
      obtain ⟨n, hn, ha⟩ := spelled_of_wellFormed (e := a) ⟨h.saturated, h.resolved⟩
      refine ⟨n + 2, ?_, primary_neg ha⟩
      rw [depth]
      omega
  | binary op a b =>
      obtain ⟨ha, hb⟩ := h.of_binary
      exact spelled_binary (spelled_of_wellFormed ha) (spelled_of_wellFormed hb)
  | call f args =>
      obtain ⟨hlength, hargs⟩ := h.of_call
      exact spelled_call hlength fun a ha => spelled_of_wellFormed (hargs a ha)

/-! ### The text of a tree has its tokens -/

theorem isName_name (f : Builtin) : IsName f.name := by
  cases f <;> exact ⟨by simp [Builtin.name, isNameStart], by simp [Builtin.name, isNameChar],
    by simp [Builtin.name]⟩

/-- What can be written and read back: leaves that are finite numbers without a sign, and names. -/
abbrev Writable (e : Expr) : Prop := e.HasLeaves fun v => v.Unsigned ∧ v.isFinite

mutual

/-- **The text of a tree has the tokens of the tree**, whatever stands after it, unless that could
prolong a numeral or a name. -/
theorem scans_display {e : Expr} (h : e.Writable) {cs : List Char} {ts : List Token}
    (hcs : Token.Scans cs ts) (hends : Ends cs) :
    Token.Scans (e.display ++ cs) (e.tokens ++ ts) := by
  match e with
  | number value =>
      obtain ⟨hunsigned, hfinite⟩ := h.numbers value List.mem_cons_self
      obtain ⟨hchars, hne, d, hread, hd⟩ :=
        Binary.read?_text (by decide) (by decide) hfinite hunsigned.isNegative
      have hnumeral := hcs.numeral hends hchars hne hread
      rw [hd] at hnumeral
      exact hnumeral
  | var name slot => exact hcs.name hends (h.names (name, slot) List.mem_cons_self)
  | neg a =>
      have hclosing : Token.Scans (')' :: cs) (.closing :: ts) := hcs.symbol rfl
      have ha := scans_display (hasLeaves_neg.mp h) hclosing (ends_cons (by decide))
      have hminus := ha.symbol (c := '-') rfl
      simpa [display, tokens] using hminus.symbol (c := '(') rfl
  | binary op a b =>
      obtain ⟨ha, hb⟩ := hasLeaves_binary.mp h
      have hclosing : Token.Scans (')' :: cs) (.closing :: ts) := hcs.symbol rfl
      have hrhs := (scans_display hb hclosing (ends_cons (by decide))).blank (c := ' ') rfl
      have hop : Token.ofChar? op.symbol = some op.token := by cases op <;> rfl
      have hrest := (hrhs.symbol hop).blank (c := ' ') rfl
      have hlhs := scans_display ha hrest (ends_cons (by decide))
      simpa [display, tokens] using hlhs.symbol (c := '(') rfl
  | call f args =>
      have hclosing : Token.Scans (')' :: cs) (.closing :: ts) := hcs.symbol rfl
      have hargs := scans_displayAll (hasLeaves_call.mp h) hclosing (ends_cons (by decide))
      have hopening := hargs.symbol (c := '(') rfl
      simpa [display, tokens] using hopening.name (ends_cons (by decide)) (isName_name f)

theorem scans_displayAll {args : List Expr} (h : ∀ a ∈ args, a.Writable) {cs : List Char}
    {ts : List Token} (hcs : Token.Scans cs ts) (hends : Ends cs) :
    Token.Scans (displayAll args ++ cs) (tokensAll args ++ ts) := by
  match args with
  | [] => exact hcs
  | [a] => exact scans_display (h a List.mem_cons_self) hcs hends
  | a :: b :: as =>
      obtain ⟨ha, has⟩ := List.forall_mem_cons.mp h
      have hblank := (scans_displayAll has hcs hends).blank (c := ' ') rfl
      have hcomma := hblank.symbol (c := ',') rfl
      simpa [displayAll, tokensAll] using scans_display ha hcomma (ends_cons (by decide))

end

theorem scan_text {e : Expr} (h : e.Writable) :
    ∃ tokens, Token.scan e.text = .ok tokens ∧ tokens.map Placed.token = e.tokens := by
  have hscans := scans_display h Token.scans_nil ends_nil
  rw [List.append_nil, List.append_nil] at hscans
  obtain ⟨tokens, hscan, htokens⟩ := hscans 0
  refine ⟨tokens, ?_, htokens⟩
  rw [Token.scan, text, String.toList_ofList, hscan]

/-! ### Reading the text -/

/-- The height of the parentheses decides whether the tree comes back from its text. -/
theorem parse_text_of_primary {e : Expr} {n : Nat} (h : e.Writable)
    (hprimary : Grammar.Primary schema n e.tokens e) (hk : e.operations ≤ maxOperations) :
    parse schema e.text = if n + 1 ≤ maxDepth then .ok e else .error .tooDeep := by
  obtain ⟨tokens, hscan, htokens⟩ := scan_text h
  have hsum : Grammar.Sum schema (n + 1) (tokens.map Placed.token) e := by
    rw [htokens]
    exact .product (.signed (.power (.primary hprimary)))
  rw [parse, hscan]
  exact ofTokens_of_sum hsum hk

/-- **A tree that was read comes back from its text**, unless the parentheses of the text nest too
deep, and this does not happen to a tree of depth at most 31.  The text of an infinite number is
not a numeral, hence the hypothesis. -/
theorem parse_text {source : String} {e : Expr} (h : parse schema source = .ok e)
    (hfinite : ∀ v ∈ e.numbers, v.isInfinite = false) :
    (parse schema e.text = .ok e ∨ parse schema e.text = .error .tooDeep) ∧
      (e.depth ≤ 31 → parse schema e.text = .ok e) := by
  have hleaves := leaves_of_parse h
  have hwritable : e.Writable :=
    ⟨fun v hv => ⟨hleaves.numbers v hv, (hleaves.numbers v hv).isFinite (hfinite v hv)⟩,
      hleaves.names⟩
  obtain ⟨tokens, -, htokens⟩ := bind_eq_ok_iff.mp h
  obtain ⟨-, -, -, hk⟩ := derived_of_ofTokens htokens
  obtain ⟨n, hn, hprimary⟩ := spelled_of_wellFormed (wellFormed_of_parse h)
  rw [parse_text_of_primary hwritable hprimary hk]
  constructor
  · split
    · exact .inl rfl
    · exact .inr rfl
  · intro hdepth
    have hlow : n + 1 ≤ maxDepth := by
      rw [maxDepth]
      omega
    exact if_pos hlow

/-- The theorem at `2x - -x`. -/
theorem parse_text_two_x_minus_minus_x :
    let schema : Schema := .ofList ["x"]
    let e : Expr := .binary .sub (.binary .mul (.number .two) (.var "x" 0)) (.neg (.var "x" 0))
    parse schema "2x - -x" = .ok e ∧ (∀ v ∈ e.numbers, v.isInfinite = false) ∧ e.depth ≤ 31 ∧
      parse schema e.text = .ok e := by
  intro schema e
  have hchars : "2x - -x".toList = ['2', 'x', ' ', '-', ' ', '-', 'x'] := by cbv
  have hscan : Token.scan "2x - -x" = .ok
      [⟨.number .two, 0⟩, ⟨.name "x", 1⟩, ⟨.minus, 3⟩, ⟨.minus, 5⟩, ⟨.name "x", 6⟩] := by
    rw [Token.scan, hchars]
    rfl
  have hparse : parse schema "2x - -x" = .ok e := by
    rw [parse, hscan]
    simp only [e]
    -- reading does not look at the number
    generalize Double.two = value
    cbv
  have hfinite : ∀ v ∈ e.numbers, v.isInfinite = false := by decide +kernel
  have hdepth : e.depth ≤ 31 := by decide
  exact ⟨hparse, hfinite, hdepth, (parse_text hparse hfinite).2 hdepth⟩

/-- The bound on the depth is sharp: a variable with `n` minus signs before it comes back from its
text if there are at most 31, and never otherwise. -/
theorem parse_text_iterate_neg {name : String} {slot n : Nat} (hname : IsName name)
    (hslot : schema.slotOf? name = some slot) (hn : n ≤ maxOperations) :
    parse schema (neg^[n] (var name slot)).text =
      if n ≤ 31 then .ok (neg^[n] (var name slot)) else .error .tooDeep := by
  have hwritable : (neg^[n] (var name slot)).Writable := by
    induction n with
    | zero => exact hasLeaves_var.mpr hname
    | succ n ih =>
        rw [Function.iterate_succ_apply']
        exact hasLeaves_neg.mpr (ih (by omega))
  have hoperations : (neg^[n] (var name slot)).operations = n := by
    clear hn hwritable
    induction n with
    | zero => rfl
    | succ n ih => rw [Function.iterate_succ_apply', operations, ih]
  have hprimary : Grammar.Primary schema (2 * n) (neg^[n] (var name slot)).tokens
      (neg^[n] (var name slot)) := by
    clear hn hwritable hoperations
    induction n with
    | zero => exact .var hslot
    | succ n ih =>
        rw [Function.iterate_succ_apply']
        exact primary_neg ih
  rw [parse_text_of_primary hwritable hprimary (by omega)]
  have hheight : 2 * n + 1 ≤ maxDepth ↔ n ≤ 31 := by
    rw [maxDepth]
    omega
  simp only [hheight]

end Expr

end PenFilter
