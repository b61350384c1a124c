import PenFilter.Formula.Expr.Parser

/-! # The grammar of formulas, as a relation

`Grammar.Sum schema n ts e` says that the tokens `ts` spell the sum `e`; `Product`, `Signed`,
`Power`, `Primary` and `Arguments` say it of the other phrases.  The number `n` is the height of
the derivation: the greatest number of signed operands and argument lists inside each other.
The relations read a list of tokens as a whole.  They know no cursor and no limits, and chains of
operators grow to the right of what is already there, so that they associate to the left.

* Every phrase has tokens, and its first one can begin an operand (`Grammar.Sum.head`).
* In a tree that the grammar derives every call has the arguments its function takes, and every
  variable has the slot that the schema gives it (`Grammar.Sum.wellFormed`). -/

namespace PenFilter

namespace Expr

mutual

/-- How many signs, operators and calls a tree has. -/
def operations : Expr → Nat
  | number _ => 0
  | var _ _ => 0
  | neg a => operations a + 1
  | binary _ a b => operations a + operations b + 1
  | call _ args => operationsAll args + 1

def operationsAll : List Expr → Nat
  | [] => 0
  | a :: as => operations a + operationsAll as

end

mutual

/-- Every call has as many arguments as its function takes. -/
def saturated : Expr → Bool
  | number _ => true
  | var _ _ => true
  | neg a => saturated a
  | binary _ a b => saturated a && saturated b
  | call f args => args.length == f.arity && saturatedAll args

def saturatedAll : List Expr → Bool
  | [] => true
  | a :: as => saturated a && saturatedAll as

end

theorem operationsAll_append (as bs : List Expr) :
    operationsAll (as ++ bs) = operationsAll as + operationsAll bs := by
  induction as with
  | nil => simp [operationsAll]
  | cons a as ih => simp only [List.cons_append, operationsAll, ih]; omega

theorem saturatedAll_append (as bs : List Expr) :
    saturatedAll (as ++ bs) = (saturatedAll as && saturatedAll bs) := by
  induction as with
  | nil => simp [saturatedAll]
  | cons a as ih => simp only [List.cons_append, saturatedAll, ih, Bool.and_assoc]

theorem occurrencesAll_append (as bs : List Expr) :
    occurrencesAll (as ++ bs) = occurrencesAll as ++ occurrencesAll bs := by
  induction as with
  | nil => simp [occurrencesAll]
  | cons a as ih => simp only [List.cons_append, occurrencesAll, ih, List.append_assoc]

/-- The calls of a tree are saturated, and the schema gives every variable its slot. -/
structure WellFormed (schema : Schema) (e : Expr) : Prop where
  saturated : e.saturated
  resolved : ∀ p ∈ e.occurrences, schema.slotOf? p.1 = some p.2

theorem WellFormed.binary {schema : Schema} {op : Operator} {a b : Expr}
    (ha : a.WellFormed schema) (hb : b.WellFormed schema) :
    (binary op a b).WellFormed schema where
  saturated := by simp [Expr.saturated, ha.saturated, hb.saturated]
  resolved := by
    intro p hp
    rcases List.mem_append.mp hp with hp | hp
    · exact ha.resolved p hp
    · exact hb.resolved p hp

theorem wellFormed_of_all {schema : Schema} {args : List Expr} (hsat : saturatedAll args)
    (hres : ∀ p ∈ occurrencesAll args, schema.slotOf? p.1 = some p.2) :
    ∀ a ∈ args, a.WellFormed schema := by
  induction args with
  | nil => exact nofun
  | cons a as ih =>
      obtain ⟨hsata, hsatas⟩ := Bool.and_eq_true_iff.mp hsat
      rw [List.forall_mem_cons]
      exact ⟨⟨hsata, fun p hp => hres p (List.mem_append_left _ hp)⟩,
        ih hsatas fun p hp => hres p (List.mem_append_right _ hp)⟩

end Expr

namespace Grammar

/-- Two tokens between which the sign of a product may be left out. -/
inductive Juxtaposed : Token → Token → Prop
  | numberName (value : Double) (name : String) : Juxtaposed (.number value) (.name name)
  | numberGroup (value : Double) : Juxtaposed (.number value) .opening
  | groupGroup : Juxtaposed .closing .opening

mutual

/-- Products with `+` and `-` between them. -/
inductive Sum (schema : Schema) : Nat → List Token → Expr → Prop
  | product {n ts e} : Product schema n ts e → Sum schema n ts e
  | add {m n ts us a b} : Sum schema m ts a → Product schema n us b →
      Sum schema (max m n) (ts ++ .plus :: us) (.binary .add a b)
  | sub {m n ts us a b} : Sum schema m ts a → Product schema n us b →
      Sum schema (max m n) (ts ++ .minus :: us) (.binary .sub a b)

/-- Signed operands with `*`, `/` or nothing between them. -/
inductive Product (schema : Schema) : Nat → List Token → Expr → Prop
  | signed {n ts e} : Signed schema n ts e → Product schema n ts e
  | mul {m n ts us a b} : Product schema m ts a → Signed schema n us b →
      Product schema (max m n) (ts ++ .star :: us) (.binary .mul a b)
  | div {m n ts us a b} : Product schema m ts a → Signed schema n us b →
      Product schema (max m n) (ts ++ .slash :: us) (.binary .div a b)
  | implied {m n ts us a b t u} : Product schema m ts a → Signed schema n us b →
      ts.getLast? = some t → us.head? = some u → Juxtaposed t u →
      Product schema (max m n) (ts ++ us) (.binary .mul a b)

/-- A power with the signs before it; `+` leaves no trace. -/
inductive Signed (schema : Schema) : Nat → List Token → Expr → Prop
  | power {n ts e} : Power schema n ts e → Signed schema (n + 1) ts e
  | minus {n ts e} : Signed schema n ts e → Signed schema (n + 1) (.minus :: ts) (.neg e)
  | plus {n ts e} : Signed schema n ts e → Signed schema (n + 1) (.plus :: ts) e

/-- A primary, and a signed exponent if there is one. -/
inductive Power (schema : Schema) : Nat → List Token → Expr → Prop
  | primary {n ts e} : Primary schema n ts e → Power schema n ts e
  | pow {m n ts us a b} : Primary schema m ts a → Signed schema n us b →
      Power schema (max m n) (ts ++ .caret :: us) (.binary .pow a b)

/-- A number, a variable, one of the two constants, a call or a group. -/
inductive Primary (schema : Schema) : Nat → List Token → Expr → Prop
  | number (value : Double) : Primary schema 0 [.number value] (.number value)
  | var {name slot} : schema.slotOf? name = some slot →
      Primary schema 0 [.name name] (.var name slot)
  | pi : schema.slotOf? "pi" = none → Primary schema 0 [.name "pi"] (.number .pi)
  | e : schema.slotOf? "e" = none → Primary schema 0 [.name "e"] (.number .e)
  | call {n ts name f args} : Builtin.ofName? name = some f → Arguments schema n ts args →
      args.length = f.arity →
      Primary schema (n + 1) (.name name :: .opening :: (ts ++ [.closing])) (.call f args)
  | group {n ts e} : Sum schema n ts e → Primary schema n (.opening :: (ts ++ [.closing])) e

/-- Sums with commas between them. -/
inductive Arguments (schema : Schema) : Nat → List Token → List Expr → Prop
  | one {n ts e} : Sum schema n ts e → Arguments schema n ts [e]
  | more {m n ts us args e} : Arguments schema m ts args → Sum schema n us e →
      Arguments schema (max m n) (ts ++ .comma :: us) (args ++ [e])

end

/-- A token that can begin a primary. -/
def BeginsPrimary : Token → Prop
  | .number _ | .name _ | .opening => True
  | _ => False

/-- A token that can begin a signed operand. -/
def BeginsOperand (t : Token) : Prop := BeginsPrimary t ∨ t = .plus ∨ t = .minus

variable {schema : Schema}

/-! ### The first token of a phrase -/

theorem Primary.head {n ts e} (h : Primary schema n ts e) :
    ∃ t us, ts = t :: us ∧ BeginsPrimary t := by
  cases h <;> exact ⟨_, _, rfl, trivial⟩

theorem Power.head {n ts e} (h : Power schema n ts e) :
    ∃ t us, ts = t :: us ∧ BeginsPrimary t := by
  cases h with
  | primary h => exact h.head
  | pow h _ =>
      obtain ⟨t, us, rfl, ht⟩ := h.head
      exact ⟨t, _, rfl, ht⟩

theorem Signed.head {n ts e} (h : Signed schema n ts e) :
    ∃ t us, ts = t :: us ∧ BeginsOperand t := by
  cases h with
  | power h =>
      obtain ⟨t, us, rfl, ht⟩ := h.head
      exact ⟨t, us, rfl, .inl ht⟩
  | minus _ => exact ⟨_, _, rfl, .inr (.inr rfl)⟩
  | plus _ => exact ⟨_, _, rfl, .inr (.inl rfl)⟩

theorem Product.head {n ts e} (h : Product schema n ts e) :
    ∃ t us, ts = t :: us ∧ BeginsOperand t := by
  match h with
  | .signed h => exact h.head
  | .mul h _ | .div h _ | .implied h _ _ _ _ =>
      obtain ⟨t, us, rfl, ht⟩ := h.head
      exact ⟨t, _, rfl, ht⟩

theorem Sum.head {n ts e} (h : Sum schema n ts e) :
    ∃ t us, ts = t :: us ∧ BeginsOperand t := by
  match h with
  | .product h => exact h.head
  | .add h _ | .sub h _ =>
      obtain ⟨t, us, rfl, ht⟩ := h.head
      exact ⟨t, _, rfl, ht⟩

theorem Signed.ne_nil {n ts e} (h : Signed schema n ts e) : ts ≠ [] := by
  obtain ⟨t, us, rfl, _⟩ := h.head
  exact List.cons_ne_nil t us

theorem Product.ne_nil {n ts e} (h : Product schema n ts e) : ts ≠ [] := by
  obtain ⟨t, us, rfl, _⟩ := h.head
  exact List.cons_ne_nil t us

theorem Sum.ne_nil {n ts e} (h : Sum schema n ts e) : ts ≠ [] := by
  obtain ⟨t, us, rfl, _⟩ := h.head
  exact List.cons_ne_nil t us

theorem Arguments.args_ne_nil {n ts args} (h : Arguments schema n ts args) : args ≠ [] := by
  cases h with
  | one _ => exact List.cons_ne_nil _ []
  | more _ _ => exact List.append_ne_nil_of_right_ne_nil _ (List.cons_ne_nil _ [])

/-! ### The trees of the grammar -/

mutual

theorem Sum.wellFormed {n ts e} (h : Sum schema n ts e) : e.WellFormed schema := by
  match h with
  | .product h => exact h.wellFormed
  | .add ha hb | .sub ha hb => exact ha.wellFormed.binary hb.wellFormed

theorem Product.wellFormed {n ts e} (h : Product schema n ts e) : e.WellFormed schema := by
  match h with
  | .signed h => exact h.wellFormed
  | .mul ha hb | .div ha hb | .implied ha hb _ _ _ => exact ha.wellFormed.binary hb.wellFormed

theorem Signed.wellFormed {n ts e} (h : Signed schema n ts e) : e.WellFormed schema := by
  match h with
  | .power h => exact h.wellFormed
  | .minus h => exact ⟨h.wellFormed.saturated, h.wellFormed.resolved⟩
  | .plus h => exact h.wellFormed

theorem Power.wellFormed {n ts e} (h : Power schema n ts e) : e.WellFormed schema := by
  match h with
  | .primary h => exact h.wellFormed
  | .pow ha hb => exact ha.wellFormed.binary hb.wellFormed

theorem Primary.wellFormed {n ts e} (h : Primary schema n ts e) : e.WellFormed schema := by
  match h with
  | .number _ | .pi _ | .e _ => exact ⟨rfl, fun _ h => nomatch h⟩
  | .var hs => exact ⟨rfl, by simpa [Expr.occurrences] using hs⟩
  | .call _ h hl =>
      obtain ⟨hsat, hres⟩ := h.wellFormed
      exact ⟨by simp [Expr.saturated, hl, hsat], hres⟩
  | .group h => exact h.wellFormed

theorem Arguments.wellFormed {n ts args} (h : Arguments schema n ts args) :
    Expr.saturatedAll args ∧
      ∀ p ∈ Expr.occurrencesAll args, schema.slotOf? p.1 = some p.2 := by
  match h with
  | .one h =>
      simpa [Expr.saturatedAll, Expr.occurrencesAll] using
        And.intro h.wellFormed.saturated h.wellFormed.resolved
  | .more ha hb =>
      obtain ⟨hsat, hres⟩ := ha.wellFormed
      obtain ⟨hsat', hres'⟩ := hb.wellFormed
      rw [Expr.saturatedAll_append, Expr.occurrencesAll_append]
      refine ⟨by simp [hsat, Expr.saturatedAll, hsat'], ?_⟩
      intro p hp
      rcases List.mem_append.mp hp with hp | hp
      · exact hres p hp
      · exact hres' p (by simpa [Expr.occurrencesAll] using hp)

end

end Grammar

end PenFilter
