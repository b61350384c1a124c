import PenFilter.Proofs.Formula.Resolution

/-! # Programs compute the value of their expression

The code of a tree puts the value of the tree on top of whatever stack it is given
(`Expr.run_emit`), where the value is the one by names: a variable stands for the argument in the
slot of its name.  Folded subtrees have that value too, whatever the arguments are
(`Expr.eval_of_fold?`).  Nothing is used about the arithmetic. -/

namespace PenFilter

/-- The argument in the slot of a name. -/
def Schema.valueOf (schema : Schema) (args : Array Double) (name : String) : Double :=
  ((schema.slotOf? name).bind fun slot => args[slot]?).getD .nan

theorem Schema.valueOf_of_slotOf? {schema : Schema} {name : String} {slot : Nat}
    (h : schema.slotOf? name = some slot) (args : Array Double) :
    schema.valueOf args name = args[slot]?.getD .nan := by
  rw [Schema.valueOf, h, Option.bind_some]

section

variable [Arithmetic]

theorem Instr.run_append (args : Array Double) (code more : List Instr) (s : Stack) :
    Instr.run args (code ++ more) s = (Instr.run args code s).bind (Instr.run args more) := by
  induction code generalizing s with
  | nil => rfl
  | cons i code ih =>
      simp only [List.cons_append, Instr.run]
      cases i.step args s with
      | none => rfl
      | some t => exact ih t

namespace Expr

/-! ### Folded subtrees -/

mutual

theorem eval_of_fold? (env : String → Double) {e : Expr} {v : Complex} (h : e.fold? = some v) :
    e.eval env = v := by
  match e with
  | number value =>
      cases h
      rfl
  | var name slot => cases h
  | neg a =>
      obtain ⟨x, hx, rfl⟩ := Option.map_eq_some_iff.mp h
      rw [eval, eval_of_fold? env hx]
  | binary op a b =>
      obtain ⟨x, hx, h⟩ := Option.bind_eq_some_iff.mp h
      obtain ⟨y, hy, h⟩ := Option.bind_eq_some_iff.mp h
      cases h
      rw [eval, eval_of_fold? env hx, eval_of_fold? env hy]
  | call f args =>
      obtain ⟨xs, hxs, rfl⟩ := Option.map_eq_some_iff.mp h
      rw [eval, evalAll_of_foldAll? env hxs]

theorem evalAll_of_foldAll? (env : String → Double) {es : List Expr} {vs : List Complex}
    (h : foldAll? es = some vs) : evalAll env es = vs := by
  match es with
  | [] =>
      cases h
      rfl
  | a :: as =>
      obtain ⟨x, hx, h⟩ := Option.bind_eq_some_iff.mp h
      obtain ⟨xs, hxs, h⟩ := Option.bind_eq_some_iff.mp h
      cases h
      rw [evalAll, eval_of_fold? env hx, evalAll_of_foldAll? env hxs]

end

theorem length_evalAll (env : String → Double) (es : List Expr) :
    (evalAll env es).length = es.length := by
  induction es with
  | nil => rfl
  | cons a as ih => rw [evalAll, List.length_cons, ih, List.length_cons]

/-! ### Running the code of a tree -/

variable {schema : Schema} {args : Array Double}

mutual

/-- The code of a tree pushes the value of the tree. -/
theorem run_emit {e : Expr} (hsat : e.saturated)
    (hres : ∀ v ∈ e.occurrences, schema.slotOf? v.1 = some v.2) (s : Stack) :
    Instr.run args e.emit s = some (e.eval (schema.valueOf args) :: s) := by
  cases hfold : e.fold? with
  | some v =>
      rw [emit_of_fold? hfold, eval_of_fold? _ hfold]
      rfl
  | none =>
      match e with
      | number value => cases hfold
      | var name slot =>
          have hslot : schema.slotOf? name = some slot := hres (name, slot) (by simp [occurrences])
          rw [eval, Schema.valueOf_of_slotOf? hslot]
          rfl
      | neg a =>
          rw [emit, hfold, Instr.run_append, run_emit (e := a) hsat hres s]
          rfl
      | binary op a b =>
          obtain ⟨hsata, hsatb⟩ := Bool.and_eq_true_iff.mp hsat
          have hresa : ∀ v ∈ a.occurrences, schema.slotOf? v.1 = some v.2 :=
            fun v hv => hres v (List.mem_append_left _ hv)
          have hresb : ∀ v ∈ b.occurrences, schema.slotOf? v.1 = some v.2 :=
            fun v hv => hres v (List.mem_append_right _ hv)
          rw [emit, hfold, Instr.run_append, Instr.run_append, run_emit hsata hresa s,
            Option.bind_some, run_emit hsatb hresb]
          rfl
      | call f as =>
          obtain ⟨hlength, hsats⟩ := Bool.and_eq_true_iff.mp hsat
          have harity : (evalAll (schema.valueOf args) as).reverse.length = f.arity := by
            rw [List.length_reverse, length_evalAll]
            exact beq_iff_eq.mp hlength
          rw [emit, hfold, Instr.run_append, run_emitAll hsats hres s, Option.bind_some]
          -- the call takes exactly the values of its arguments off the stack
          simp only [Instr.run, Instr.step, List.length_append, harity, Nat.le_add_right, if_true,
            Option.bind_some, eval]
          rw [← harity, List.take_left, List.drop_left, List.reverse_reverse]

theorem run_emitAll {es : List Expr} (hsat : saturatedAll es)
    (hres : ∀ v ∈ occurrencesAll es, schema.slotOf? v.1 = some v.2) (s : Stack) :
    Instr.run args (emitAll es) s =
      some ((evalAll (schema.valueOf args) es).reverse ++ s) := by
  match es with
  | [] => rfl
  | a :: as =>
      obtain ⟨hsata, hsats⟩ := Bool.and_eq_true_iff.mp hsat
      have hresa : ∀ v ∈ a.occurrences, schema.slotOf? v.1 = some v.2 :=
        fun v hv => hres v (List.mem_append_left _ hv)
      have hress : ∀ v ∈ occurrencesAll as, schema.slotOf? v.1 = some v.2 :=
        fun v hv => hres v (List.mem_append_right _ hv)
      rw [emitAll, Instr.run_append, run_emit hsata hresa s, Option.bind_some,
        run_emitAll hsats hress, evalAll, List.reverse_cons, List.append_assoc,
        List.singleton_append]

end

end Expr

namespace Program

theorem call_ofSource {schema : Schema} {source : String} {e : Expr} {p : Program}
    (hsat : e.saturated) (h : ofSource schema source e = .ok p) {args : Array Double}
    (hargs : args.size = schema.size) (stack : Stack) :
    p.call args stack = (e.eval (schema.valueOf args), []) := by
  obtain ⟨hres, rfl⟩ := ofSource_eq_ok_iff.mp h
  simp [call, hargs, Expr.run_emit hsat hres]

/-- The program of a formula computes the value of the tree that the formula is read as. -/
theorem call_ofFormula {schema : Schema} {source : String} {p : Program}
    (h : ofFormula schema source = .ok p) :
    ∃ e, Expr.parse schema source = .ok e ∧
      ∀ (args : Array Double) (stack : Stack), args.size = schema.size →
        p.call args stack = (e.eval (schema.valueOf args), []) := by
  obtain ⟨e, hparse, hp⟩ := ofFormula_eq_ok_iff.mp h
  have hwell := Expr.wellFormed_of_parse hparse
  have hsource : ofSource schema source e = .ok p :=
    ofSource_eq_ok_iff.mpr ⟨hwell.resolved, hp⟩
  exact ⟨e, hparse, fun _ stack hargs => call_ofSource hwell.saturated hsource hargs stack⟩

/-- **Compiled expressions compute their value**: whatever the arithmetic does, the program of an
expression whose calls are saturated gives the value of the expression by names, and gives it
with every stack it is called with.  The calls of whatever the parser builds are saturated. -/
theorem call_ofExpr_eq_eval (schema : Schema) :
    (∀ (source : String) (e : Expr), Expr.parse schema source = .ok e → e.saturated) ∧
    ∀ (e : Expr) (p : Program), e.saturated → ofExpr schema e = .ok p →
      ∀ (args : Array Double) (stack : Stack), args.size = schema.size →
        p.call args stack = (e.eval (schema.valueOf args), []) :=
  ⟨fun _ _ h => (Expr.wellFormed_of_parse h).saturated,
    fun _ _ hsat h _ stack hargs => call_ofSource hsat h hargs stack⟩

end Program

end

/-- The theorem at `clamp(y, -1, 1) - x`, where the sign is folded, on a stack that still holds
something. -/
theorem Program.call_ofExpr_clamp :
    let schema : Schema := .ofList ["x", "y"]
    let e : Expr := .binary .sub
      (.call .clamp [.var "y" 1, .neg (.number .one), .number .one]) (.var "x" 0)
    let code : List Instr := [.load 1, .const (-.ofReal .one), .const (.ofReal .one),
      .call .clamp, .load 0, .binary .sub]
    let args : Array Double := #[.one, .two]
    e.saturated ∧ ofExpr schema e = .ok ⟨e.text, 2, code, 3⟩ ∧ args.size = schema.size ∧
      call ⟨e.text, 2, code, 3⟩ args [.nan] = (e.eval (schema.valueOf args), []) := by
  intro schema e code args
  have hcompile : ofExpr schema e = .ok ⟨e.text, 2, code, 3⟩ :=
    ofSource_eq_ok_iff.mpr ⟨by decide, rfl⟩
  exact ⟨rfl, hcompile, rfl, (call_ofExpr_eq_eval schema).2 e _ rfl hcompile args [.nan] rfl⟩

end PenFilter
