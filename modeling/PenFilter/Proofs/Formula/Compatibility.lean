import PenFilter.Proofs.Formula.Extension

/-! # Expressions and the schemas they fit

An expression keeps the slots that it was read with, and can be compiled for another schema.  That
is refused exactly when a variable is not in the slot where the schema has its name, and the error
is about the first such variable in reading order (`Program.ofSource_eq_error_iff`).  What was read
for a schema fits that schema and every longer one (`Expr.fits_of_parse`). -/

namespace PenFilter

namespace Schema

/-- The schema has something to say against this variable in this slot. -/
inductive Rejects (schema : Schema) (name : String) (slot : Nat) : CompileError → Prop
  | outOfRange (h : schema.size ≤ slot) :
      Rejects schema name slot (.slotOutOfRange name slot schema.size)
  | mismatch {found : String} (h : schema.nameAt? slot = some found) (hne : found ≠ name) :
      Rejects schema name slot (.schemaMismatch name found slot)

theorem mismatch?_eq_some_iff {schema : Schema} {name : String} {slot : Nat}
    {error : CompileError} :
    schema.mismatch? name slot = some error ↔ schema.Rejects name slot error := by
  unfold mismatch?
  cases hfound : schema.nameAt? slot with
  | none =>
      have hsize : schema.size ≤ slot := List.getElem?_eq_none_iff.mp hfound
      constructor
      · intro h
        cases h
        exact .outOfRange hsize
      · intro h
        cases h with
        | outOfRange _ => rfl
        | mismatch h _ => cases hfound.symm.trans h
  | some found =>
      obtain ⟨hlt, -⟩ := List.getElem?_eq_some_iff.mp hfound
      show (if found = name then none else some _) = some error ↔ _
      constructor
      · intro h
        obtain ⟨hne, herror⟩ := Option.ite_none_left_eq_some.mp h
        cases herror
        exact .mismatch hfound hne
      · intro h
        cases h with
        | outOfRange h => exact absurd hlt (Nat.not_lt.mpr h)
        | mismatch h hne =>
            cases hfound.symm.trans h
            exact if_neg hne

end Schema

/-- Every variable is in the slot where the schema has its name. -/
def Expr.Fits (e : Expr) (schema : Schema) : Prop :=
  ∀ v ∈ e.occurrences, schema.nameAt? v.2 = some v.1

/-- What was read for a schema fits each schema that begins with the same names. -/
theorem Expr.fits_of_parse {shorter longer : Schema} {source : String} {e : Expr}
    (h : Expr.parse shorter source = .ok e) (hnames : shorter.names <+: longer.names) :
    e.Fits longer := by
  intro v hv
  have hslot : shorter.slotOf? v.1 = some v.2 := (wellFormed_of_parse h).resolved v hv
  exact Schema.slotOf?_eq_some_iff.mp (Schema.slotOf?_of_prefix hnames hslot)

namespace Program

section

variable [Arithmetic] {schema : Schema} {source : String} {e : Expr}

theorem exists_ofSource_iff : (∃ p, ofSource schema source e = .ok p) ↔ e.Fits schema := by
  simp only [ofSource_eq_ok_iff, exists_and_left, exists_eq, and_true, Expr.Fits,
    Schema.slotOf?_eq_some_iff]

theorem ofSource_eq_error_iff {error : CompileError} :
    ofSource schema source e = .error error ↔
      ∃ before name slot after, e.occurrences = before ++ (name, slot) :: after ∧
        (∀ v ∈ before, schema.nameAt? v.2 = some v.1) ∧ schema.Rejects name slot error := by
  have hfind : ofSource schema source e = .error error ↔
      (e.occurrences.findSome? fun v => schema.mismatch? v.1 v.2) = some error := by
    unfold ofSource
    split
    · rename_i first hfirst
      rw [hfirst, Except.error.injEq, Option.some.injEq]
    · rename_i hnone
      rw [hnone]
      exact ⟨nofun, nofun⟩
  rw [hfind, List.findSome?_eq_some_iff]
  simp only [Schema.mismatch?_eq_none_iff, Schema.mismatch?_eq_some_iff,
    Schema.slotOf?_eq_some_iff]
  constructor
  · rintro ⟨before, ⟨name, slot⟩, after, hsplit, hrejects, hbefore⟩
    exact ⟨before, name, slot, after, hsplit, hbefore, hrejects⟩
  · rintro ⟨before, name, slot, after, hsplit, hbefore, hrejects⟩
    exact ⟨before, (name, slot), after, hsplit, hrejects, hbefore⟩

/-- **An expression compiles exactly where it is safe**: for every expression and every schema,
where safe means that the schema has each variable of the expression in its slot, and whatever does
not compile is refused for its first unsafe variable.  What was read for a schema compiles for all
schemas that begin with its names, and no formula is refused for its slots. -/
theorem ofExpr_ok_iff_fits (e : Expr) (schema : Schema) :
    ((∃ p, ofExpr schema e = .ok p) ↔ e.Fits schema) ∧
    (e.Fits schema ↔ ∀ v ∈ e.occurrences, schema.slotOf? v.1 = some v.2) ∧
    (∀ error, ofExpr schema e = .error error ↔
      ∃ before name slot after, e.occurrences = before ++ (name, slot) :: after ∧
        (∀ v ∈ before, schema.nameAt? v.2 = some v.1) ∧ schema.Rejects name slot error) ∧
    (∀ shorter source, Expr.parse shorter source = .ok e → shorter.names <+: schema.names →
      ∃ p, ofExpr schema e = .ok p) ∧
    ∀ source error, ofFormula schema source ≠ .error (.compile error) := by
  refine ⟨exists_ofSource_iff, ?_, fun error => ofSource_eq_error_iff, ?_, ?_⟩
  · simp only [Expr.Fits, Schema.slotOf?_eq_some_iff]
  · intro shorter source hparse hnames
    exact exists_ofSource_iff.mpr (Expr.fits_of_parse hparse hnames)
  · intro source error
    rw [ofFormula_eq]
    split <;> exact nofun

end

/-- The theorem at `-x`, read where `x` is the only variable: it compiles where `y` comes after
`x`, and not where `y` comes before. -/
theorem ofExpr_ok_iff_fits_minus_x :
    let shorter : Schema := .ofList ["x"]
    let longer : Schema := .ofList ["x", "y"]
    let other : Schema := .ofList ["y", "x"]
    let e : Expr := .neg (.var "x" 0)
    Expr.parse shorter "-x" = .ok e ∧ shorter.names <+: longer.names ∧
      (∃ p, ofExpr longer e = .ok p) ∧
      ofExpr other e = .error (.schemaMismatch "x" "y" 0) := by
  intro shorter longer other e
  have hchars : "-x".toList = ['-', 'x'] := rfl
  have hparse : Expr.parse shorter "-x" = .ok e := by
    rw [Expr.parse, Token.scan, hchars]
    rfl
  have hnames : shorter.names <+: longer.names := ⟨["y"], rfl⟩
  obtain ⟨-, -, -, hlonger, -⟩ := ofExpr_ok_iff_fits e longer
  obtain ⟨-, -, herror, -, -⟩ := ofExpr_ok_iff_fits e other
  have hrejects : other.Rejects "x" 0 (.schemaMismatch "x" "y" 0) :=
    .mismatch rfl (by decide)
  exact ⟨hparse, hnames, hlonger shorter "-x" hparse hnames,
    (herror _).mpr ⟨[], "x", 0, [], rfl, nofun, hrejects⟩⟩

end Program

end PenFilter
