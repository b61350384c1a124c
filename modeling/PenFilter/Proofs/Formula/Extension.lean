import PenFilter.Proofs.Formula.Execution
import PenFilter.Proofs.Formula.Recognition

/-! # Longer schemas

A schema extends another when the names of the other come first in it and neither constant is
among the names that are new (`Schema.Extends`).  The names of the shorter schema keep their slots
and a constant stays one, so that whatever the grammar derives for the shorter schema it derives
for the longer one, and a source is read as the same tree (`Expr.parse_of_extends`).  The value of
a tree depends on the variables in it only (`Expr.eval_congr`). -/

namespace PenFilter

namespace Schema

/-- The longer schema begins with the names of the shorter one and adds neither constant. -/
structure Extends (longer shorter : Schema) : Prop where
  names : shorter.names <+: longer.names
  pi : "pi" ∈ longer.names → "pi" ∈ shorter.names
  e : "e" ∈ longer.names → "e" ∈ shorter.names

variable {longer shorter : Schema} {name : String} {slot : Nat}

/-- A name keeps its slot when names are added at the end. -/
theorem slotOf?_of_prefix (h : shorter.names <+: longer.names)
    (hslot : shorter.slotOf? name = some slot) : longer.slotOf? name = some slot := by
  rw [slotOf?_eq_some_iff] at hslot ⊢
  unfold nameAt? at hslot ⊢
  obtain ⟨hlt, rfl⟩ := List.getElem?_eq_some_iff.mp hslot
  exact List.prefix_iff_getElem?.mp h slot hlt

theorem slotOf?_eq_none_iff : longer.slotOf? name = none ↔ name ∉ longer.names := by
  unfold slotOf?
  simp

/-- A constant that the shorter schema does not hide is not hidden by the longer one. -/
theorem slotOf?_eq_none_of_imp (h : name ∈ longer.names → name ∈ shorter.names)
    (hnone : shorter.slotOf? name = none) : longer.slotOf? name = none := by
  rw [slotOf?_eq_none_iff] at hnone ⊢
  exact fun hmem => hnone (h hmem)

end Schema

/-! ### Derivations for a longer schema -/

namespace Grammar

variable {longer shorter : Schema}

mutual

theorem Sum.of_extends (hext : longer.Extends shorter) {n ts e} (h : Sum shorter n ts e) :
    Sum longer n ts e := by
  match h with
  | .product h => exact .product (h.of_extends hext)
  | .add ha hb => exact .add (ha.of_extends hext) (hb.of_extends hext)
  | .sub ha hb => exact .sub (ha.of_extends hext) (hb.of_extends hext)

theorem Product.of_extends (hext : longer.Extends shorter) {n ts e}
    (h : Product shorter n ts e) : Product longer n ts e := by
  match h with
  | .signed h => exact .signed (h.of_extends hext)
  | .mul ha hb => exact .mul (ha.of_extends hext) (hb.of_extends hext)
  | .div ha hb => exact .div (ha.of_extends hext) (hb.of_extends hext)
  | .implied ha hb ht hu hj =>
      exact .implied (ha.of_extends hext) (hb.of_extends hext) ht hu hj

theorem Signed.of_extends (hext : longer.Extends shorter) {n ts e}
    (h : Signed shorter n ts e) : Signed longer n ts e := by
  match h with
  | .power h => exact .power (h.of_extends hext)
  | .minus h => exact .minus (h.of_extends hext)
  | .plus h => exact .plus (h.of_extends hext)

theorem Power.of_extends (hext : longer.Extends shorter) {n ts e}
    (h : Power shorter n ts e) : Power longer n ts e := by
  match h with
  | .primary h => exact .primary (h.of_extends hext)
  | .pow ha hb => exact .pow (ha.of_extends hext) (hb.of_extends hext)

theorem Primary.of_extends (hext : longer.Extends shorter) {n ts e}
    (h : Primary shorter n ts e) : Primary longer n ts e := by
  match h with
  | .number value => exact .number value
  | .var hslot => exact .var (Schema.slotOf?_of_prefix hext.names hslot)
  | .pi hnone => exact .pi (Schema.slotOf?_eq_none_of_imp hext.pi hnone)
  | .e hnone => exact .e (Schema.slotOf?_eq_none_of_imp hext.e hnone)
  | .call hf h hlength => exact .call hf (h.of_extends hext) hlength
  | .group h => exact .group (h.of_extends hext)

theorem Arguments.of_extends (hext : longer.Extends shorter) {n ts args}
    (h : Arguments shorter n ts args) : Arguments longer n ts args := by
  match h with
  | .one h => exact .one (h.of_extends hext)
  | .more ha hb => exact .more (ha.of_extends hext) (hb.of_extends hext)

end

end Grammar

/-! ### Sources for a longer schema -/

variable {longer shorter : Schema} {source : String} {e : Expr}

theorem Expr.parse_of_extends (hext : longer.Extends shorter)
    (h : Expr.parse shorter source = .ok e) : Expr.parse longer source = .ok e := by
  obtain ⟨tokens, hscan, htokens⟩ := bind_eq_ok_iff.mp h
  obtain ⟨m, hm, hsum, hsize⟩ := derived_of_ofTokens htokens
  exact bind_eq_ok_iff.mpr
    ⟨tokens, hscan, ofTokens_of_derived hm (hsum.of_extends hext) hsize⟩

/-! ### The variables of a tree -/

namespace Expr

variable [Arithmetic] {env other : String → Double}

mutual

theorem eval_congr {e : Expr} (h : ∀ p ∈ e.occurrences, env p.1 = other p.1) :
    e.eval env = e.eval other := by
  match e with
  | number value => rfl
  | var name slot =>
      have hname : env name = other name := h (name, slot) (by simp [occurrences])
      rw [eval, eval, hname]
  | neg a => rw [eval, eval, eval_congr (e := a) h]
  | binary op a b =>
      have ha : ∀ p ∈ a.occurrences, env p.1 = other p.1 :=
        fun p hp => h p (List.mem_append_left _ hp)
      have hb : ∀ p ∈ b.occurrences, env p.1 = other p.1 :=
        fun p hp => h p (List.mem_append_right _ hp)
      rw [eval, eval, eval_congr ha, eval_congr hb]
  | call f args =>
      have hargs : ∀ p ∈ occurrencesAll args, env p.1 = other p.1 := h
      rw [eval, eval, evalAll_congr hargs]

theorem evalAll_congr {es : List Expr} (h : ∀ p ∈ occurrencesAll es, env p.1 = other p.1) :
    evalAll env es = evalAll other es := by
  match es with
  | [] => rfl
  | a :: as =>
      have ha : ∀ p ∈ a.occurrences, env p.1 = other p.1 :=
        fun p hp => h p (List.mem_append_left _ hp)
      have has : ∀ p ∈ occurrencesAll as, env p.1 = other p.1 :=
        fun p hp => h p (List.mem_append_right _ hp)
      rw [evalAll, evalAll, eval_congr ha, evalAll_congr has]

end

end Expr

end PenFilter
