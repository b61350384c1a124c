import PenFilter.Proofs.Formula.Emission
import PenFilter.Proofs.Formula.Soundness

/-! # Variables in their slots

A program is made from an expression exactly when every variable is in the slot that the schema
gives its name (`Program.ofSource_eq_ok_iff`).  The trees that the parser builds are so for the
schema they were read against, so that a formula is refused for its text only, never for its
slots (`Program.ofFormula_eq`). -/

namespace PenFilter

theorem Schema.mismatch?_eq_none_iff {schema : Schema} {name : String} {slot : Nat} :
    schema.mismatch? name slot = none ↔ schema.slotOf? name = some slot := by
  rw [Schema.slotOf?_eq_some_iff]
  unfold Schema.mismatch?
  cases h : schema.nameAt? slot with
  | none => simp
  | some found => simp

namespace Expr

variable {schema : Schema}

theorem wellFormed_of_parse {source : String} {e : Expr} (h : parse schema source = .ok e) :
    e.WellFormed schema := by
  obtain ⟨tokens, _, htokens⟩ := bind_eq_ok_iff.mp h
  obtain ⟨_, _, hsum, _⟩ := derived_of_ofTokens htokens
  exact hsum.wellFormed

end Expr

namespace Program

variable [Arithmetic] {schema : Schema} {source : String} {e : Expr}

theorem ofSource_eq_ok_iff {p : Program} :
    ofSource schema source e = .ok p ↔
      (∀ v ∈ e.occurrences, schema.slotOf? v.1 = some v.2) ∧
        p = ⟨source, schema.size, e.emit, e.room⟩ := by
  have hfind : (e.occurrences.findSome? fun v => schema.mismatch? v.1 v.2) = none ↔
      ∀ v ∈ e.occurrences, schema.slotOf? v.1 = some v.2 := by
    simp only [List.findSome?_eq_none_iff, Schema.mismatch?_eq_none_iff]
  rw [← hfind]
  unfold ofSource
  split
  · rename_i error herror
    constructor
    · intro h
      cases h
    · rintro ⟨hnone, _⟩
      cases herror.symm.trans hnone
  · rename_i hnone
    have hcode : (Emitter.emit {} e).code = e.emit := Emitter.code_emit {} e
    constructor
    · intro h
      exact ⟨hnone, by rw [← Except.ok.inj h, hcode, Expr.room]⟩
    · rintro ⟨_, rfl⟩
      rw [← hcode]
      rfl

/-- A formula is compiled if it can be read, and refused by the reader if not. -/
theorem ofFormula_eq (schema : Schema) (source : String) :
    ofFormula schema source =
      match Expr.parse schema source with
      | .error error => .error (.parse error)
      | .ok e => .ok ⟨source, schema.size, e.emit, e.room⟩ := by
  unfold ofFormula
  cases hparse : Expr.parse schema source with
  | error error => rfl
  | ok e =>
      have hok : ofSource schema source e = .ok ⟨source, schema.size, e.emit, e.room⟩ :=
        ofSource_eq_ok_iff.mpr ⟨(Expr.wellFormed_of_parse hparse).resolved, rfl⟩
      simp only [hok]

theorem ofFormula_eq_ok_iff {p : Program} :
    ofFormula schema source = .ok p ↔
      ∃ e, Expr.parse schema source = .ok e ∧ p = ⟨source, schema.size, e.emit, e.room⟩ := by
  rw [ofFormula_eq]
  cases Expr.parse schema source with
  | error error => simp
  | ok e => simp [eq_comm]

theorem arity_of_ofFormula {p : Program} (h : ofFormula schema source = .ok p) :
    p.arity = schema.size := by
  obtain ⟨e, -, rfl⟩ := ofFormula_eq_ok_iff.mp h
  rfl

end Program

end PenFilter
