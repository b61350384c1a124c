import PenFilter.Proofs.Formula.Scan
import PenFilter.Proofs.Formula.Soundness
import PenFilter.Proofs.Number.Decimal

/-! # The leaves of trees

`Expr.HasLeaves P e` says that the numbers in a tree have a property and that its variables are
called by names.  The leaves of a tree that the grammar derives come from the tokens
(`Grammar.Sum.leaves`), except for the two constants, so that no number in a tree that was read has
a sign (`Expr.leaves_of_parse`). -/

namespace PenFilter

namespace Expr

mutual

/-- The numbers in a tree, in reading order. -/
def numbers : Expr → List Double
  | number value => [value]
  | var _ _ => []
  | neg a => numbers a
  | binary _ a b => numbers a ++ numbers b
  | call _ args => numbersAll args

def numbersAll : List Expr → List Double
  | [] => []
  | a :: as => numbers a ++ numbersAll as

end

/-- All numbers in a tree have the property `P`, and all names of variables are names. -/
structure HasLeaves (P : Double → Prop) (e : Expr) : Prop where
  numbers : ∀ v ∈ e.numbers, P v
  names : ∀ p ∈ e.occurrences, IsName p.1

variable {P : Double → Prop}

theorem hasLeaves_number {value : Double} : (number value).HasLeaves P ↔ P value :=
  ⟨fun h => h.numbers value List.mem_cons_self,
    fun h => ⟨List.forall_mem_singleton.mpr h, nofun⟩⟩

theorem hasLeaves_var {name : String} {slot : Nat} : (var name slot).HasLeaves P ↔ IsName name :=
  ⟨fun h => h.names (name, slot) List.mem_cons_self,
    fun h => ⟨nofun, List.forall_mem_singleton.mpr h⟩⟩

theorem hasLeaves_neg {a : Expr} : (neg a).HasLeaves P ↔ a.HasLeaves P :=
  ⟨fun h => ⟨h.numbers, h.names⟩, fun h => ⟨h.numbers, h.names⟩⟩

theorem hasLeaves_binary {op : Operator} {a b : Expr} :
    (binary op a b).HasLeaves P ↔ a.HasLeaves P ∧ b.HasLeaves P := by
  constructor
  · intro h
    obtain ⟨hnumbers, hnumbers'⟩ := List.forall_mem_append.mp h.numbers
    obtain ⟨hnames, hnames'⟩ := List.forall_mem_append.mp h.names
    exact ⟨⟨hnumbers, hnames⟩, ⟨hnumbers', hnames'⟩⟩
  · rintro ⟨ha, hb⟩
    exact ⟨List.forall_mem_append.mpr ⟨ha.numbers, hb.numbers⟩,
      List.forall_mem_append.mpr ⟨ha.names, hb.names⟩⟩

theorem forall_mem_leavesAll {args : List Expr} :
    ((∀ v ∈ numbersAll args, P v) ∧ ∀ p ∈ occurrencesAll args, IsName p.1) ↔
      ∀ a ∈ args, a.HasLeaves P := by
  induction args with
  | nil => exact ⟨fun _ => nofun, fun _ => ⟨nofun, nofun⟩⟩
  | cons a as ih =>
      rw [numbersAll, occurrencesAll, List.forall_mem_append, List.forall_mem_append,
        List.forall_mem_cons, ← ih]
      exact ⟨fun ⟨hnumbers, hnames⟩ => ⟨⟨hnumbers.1, hnames.1⟩, ⟨hnumbers.2, hnames.2⟩⟩,
        fun ⟨ha, has⟩ => ⟨⟨ha.numbers, has.1⟩, ⟨ha.names, has.2⟩⟩⟩

theorem hasLeaves_call {f : Builtin} {args : List Expr} :
    (call f args).HasLeaves P ↔ ∀ a ∈ args, a.HasLeaves P := by
  rw [← forall_mem_leavesAll]
  exact ⟨fun h => ⟨h.numbers, h.names⟩, fun h => ⟨h.1, h.2⟩⟩

end Expr

namespace Grammar

open PenFilter.Expr

variable {schema : Schema}

/-- A numeral has no sign: that is a token of its own. -/
theorem unsigned_of_lexical {value : Double} (h : (Token.number value).Lexical) :
    value.Unsigned := by
  obtain ⟨d, rfl⟩ := h
  exact Binary.unsigned_ofDecimal (by decide) d

mutual

theorem Sum.leaves {n ts e} (h : Sum schema n ts e) (hts : ∀ t ∈ ts, t.Lexical) :
    e.HasLeaves Binary.Unsigned := by
  match h with
  | .product h => exact h.leaves hts
  | .add ha hb | .sub ha hb =>
      rw [List.forall_mem_append, List.forall_mem_cons] at hts
      exact hasLeaves_binary.mpr ⟨ha.leaves hts.1, hb.leaves hts.2.2⟩

theorem Product.leaves {n ts e} (h : Product schema n ts e) (hts : ∀ t ∈ ts, t.Lexical) :
    e.HasLeaves Binary.Unsigned := by
  match h with
  | .signed h => exact h.leaves hts
  | .mul ha hb | .div ha hb =>
      rw [List.forall_mem_append, List.forall_mem_cons] at hts
      exact hasLeaves_binary.mpr ⟨ha.leaves hts.1, hb.leaves hts.2.2⟩
  | .implied ha hb _ _ _ =>
      rw [List.forall_mem_append] at hts
      exact hasLeaves_binary.mpr ⟨ha.leaves hts.1, hb.leaves hts.2⟩

theorem Signed.leaves {n ts e} (h : Signed schema n ts e) (hts : ∀ t ∈ ts, t.Lexical) :
    e.HasLeaves Binary.Unsigned := by
  match h with
  | .power h => exact h.leaves hts
  | .minus h => exact hasLeaves_neg.mpr (h.leaves (List.forall_mem_cons.mp hts).2)
  | .plus h => exact h.leaves (List.forall_mem_cons.mp hts).2

theorem Power.leaves {n ts e} (h : Power schema n ts e) (hts : ∀ t ∈ ts, t.Lexical) :
    e.HasLeaves Binary.Unsigned := by
  match h with
  | .primary h => exact h.leaves hts
  | .pow ha hb =>
      rw [List.forall_mem_append, List.forall_mem_cons] at hts
      exact hasLeaves_binary.mpr ⟨ha.leaves hts.1, hb.leaves hts.2.2⟩

theorem Primary.leaves {n ts e} (h : Primary schema n ts e) (hts : ∀ t ∈ ts, t.Lexical) :
    e.HasLeaves Binary.Unsigned := by
  match h with
  | .number value =>
      exact hasLeaves_number.mpr (unsigned_of_lexical (hts _ List.mem_cons_self))
  | .var _ => exact hasLeaves_var.mpr (hts _ List.mem_cons_self)
  | .pi _ => exact hasLeaves_number.mpr ⟨by decide +kernel, by decide⟩
  | .e _ => exact hasLeaves_number.mpr ⟨by decide +kernel, by decide⟩
  | .call _ h _ =>
      rw [List.forall_mem_cons, List.forall_mem_cons, List.forall_mem_append] at hts
      exact hasLeaves_call.mpr (h.leaves hts.2.2.1)
  | .group h =>
      rw [List.forall_mem_cons, List.forall_mem_append] at hts
      exact h.leaves hts.2.1

theorem Arguments.leaves {n ts args} (h : Arguments schema n ts args)
    (hts : ∀ t ∈ ts, t.Lexical) : ∀ a ∈ args, a.HasLeaves Binary.Unsigned := by
  match h with
  | .one h => exact List.forall_mem_singleton.mpr (h.leaves hts)
  | .more ha hb =>
      rw [List.forall_mem_append, List.forall_mem_cons] at hts
      rw [List.forall_mem_append, List.forall_mem_singleton]
      exact ⟨ha.leaves hts.1, hb.leaves hts.2.2⟩

end

end Grammar

namespace Expr

variable {schema : Schema}

/-- The leaves of a tree that was read are numbers without a sign, and names. -/
theorem leaves_of_parse {source : String} {e : Expr} (h : parse schema source = .ok e) :
    e.HasLeaves Binary.Unsigned := by
  obtain ⟨tokens, hscan, htokens⟩ := bind_eq_ok_iff.mp h
  obtain ⟨m, -, hsum, -⟩ := derived_of_ofTokens htokens
  apply hsum.leaves
  intro t ht
  obtain ⟨p, hp, rfl⟩ := List.mem_map.mp ht
  exact Token.lexical_of_scan hscan p hp

end Expr

end PenFilter
