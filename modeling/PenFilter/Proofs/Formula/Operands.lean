import PenFilter.Proofs.Formula.Execution

/-! # Instructions have their operands

A program has an answer for everything that could be missing while it runs: a variable, operands
on the stack, a value at the end.  `Program.Completes` says that nothing is: each instruction finds
what it works on at the moment when it runs, and exactly one value is left.  Programs of formulas
complete with every list of values of the right length (`Program.completes_ofFormula`).

The variables that a code loads are those of its tree, in their order and as often
(`Expr.loads_emit`). -/

namespace PenFilter

namespace Instr

/-- What an instruction works on is there: a variable among the values, operands on the stack. -/
def Supplied (args : Array Double) (s : Stack) : Instr → Prop
  | const _ => True
  | load slot => slot < args.size
  | neg => 1 ≤ s.length
  | binary _ => 2 ≤ s.length
  | call f => f.arity ≤ s.length

/-- The slots that a code loads, in order. -/
def loads (code : List Instr) : List Nat :=
  code.filterMap fun
    | load slot => some slot
    | const _ | neg | binary _ | call _ => none

theorem loads_append (code more : List Instr) : loads (code ++ more) = loads code ++ loads more :=
  List.filterMap_append

theorem mem_loads {code : List Instr} {slot : Nat} : slot ∈ loads code ↔ load slot ∈ code := by
  rw [loads, List.mem_filterMap]
  constructor
  · rintro ⟨i, hi, hslot⟩
    cases i <;> cases hslot
    exact hi
  · intro h
    exact ⟨load slot, h, rfl⟩

theorem append_cases {code more before after : List Instr} {i : Instr}
    (h : code ++ more = before ++ i :: after) :
    (∃ rest, code = before ++ i :: rest) ∨
      ∃ front, before = code ++ front ∧ more = front ++ i :: after := by
  rcases List.append_eq_append_iff.mp h with hfront | ⟨rest, rfl, hafter⟩
  · exact .inr hfront
  · cases rest with
    | nil => exact .inr ⟨[], by rw [List.append_nil, List.append_nil], hafter.symm⟩
    | cons j rest =>
        obtain ⟨rfl, -⟩ := List.cons.inj hafter
        exact .inl ⟨rest, rfl⟩

section

variable [Arithmetic] {args : Array Double} {s t : Stack}

/-- Every instruction of a list is supplied when its turn comes. -/
def AllSupplied (args : Array Double) (s : Stack) (code : List Instr) : Prop :=
  ∀ before i after, code = before ++ i :: after →
    ∃ t, run args before s = some t ∧ i.Supplied args t

theorem allSupplied_nil : AllSupplied args s [] := by
  intro before i after h
  cases before <;> cases h

theorem allSupplied_singleton {i : Instr} (h : i.Supplied args s) : AllSupplied args s [i] := by
  intro before j after hsplit
  cases before with
  | nil =>
      cases hsplit
      exact ⟨s, rfl, h⟩
  | cons first before => cases before <;> cases hsplit

theorem AllSupplied.append {code more : List Instr} (hcode : AllSupplied args s code)
    (hrun : run args code s = some t) (hmore : AllSupplied args t more) :
    AllSupplied args s (code ++ more) := by
  intro before i after hsplit
  rcases append_cases hsplit with ⟨rest, hcase⟩ | ⟨front, rfl, hfront⟩
  · exact hcode before i rest hcase
  · obtain ⟨u, hu, hi⟩ := hmore front i after hfront
    refine ⟨u, ?_, hi⟩
    rw [run_append, hrun, Option.bind_some, hu]

end

end Instr

theorem Schema.lt_size_of_slotOf? {schema : Schema} {name : String} {slot : Nat}
    (h : schema.slotOf? name = some slot) : slot < schema.size := by
  obtain ⟨hlt, -⟩ := List.getElem?_eq_some_iff.mp (Schema.slotOf?_eq_some_iff.mp h)
  exact hlt

namespace Expr

variable [Arithmetic]

/-! ### Loads -/

mutual

theorem occurrences_of_fold? {e : Expr} {v : Complex} (h : e.fold? = some v) :
    e.occurrences = [] := by
  match e with
  | number value => rfl
  | var name slot => cases h
  | neg a =>
      obtain ⟨x, hx, -⟩ := Option.map_eq_some_iff.mp h
      exact occurrences_of_fold? (e := a) hx
  | binary op a b =>
      obtain ⟨x, hx, h⟩ := Option.bind_eq_some_iff.mp h
      obtain ⟨y, hy, -⟩ := Option.bind_eq_some_iff.mp h
      rw [occurrences, occurrences_of_fold? hx, occurrences_of_fold? hy, List.append_nil]
  | call f args =>
      obtain ⟨xs, hxs, -⟩ := Option.map_eq_some_iff.mp h
      rw [occurrences, occurrencesAll_of_foldAll? hxs]

theorem occurrencesAll_of_foldAll? {es : List Expr} {vs : List Complex}
    (h : foldAll? es = some vs) : occurrencesAll es = [] := by
  match es with
  | [] => rfl
  | a :: as =>
      obtain ⟨x, hx, h⟩ := Option.bind_eq_some_iff.mp h
      obtain ⟨xs, hxs, -⟩ := Option.bind_eq_some_iff.mp h
      rw [occurrencesAll, occurrences_of_fold? hx, occurrencesAll_of_foldAll? hxs,
        List.append_nil]

end

mutual

/-- The code of a tree loads the variables of the tree, in reading order. -/
theorem loads_emit (e : Expr) : Instr.loads e.emit = e.occurrences.map Prod.snd := by
  cases hfold : e.fold? with
  | some v =>
      rw [emit_of_fold? hfold, occurrences_of_fold? hfold]
      rfl
  | none =>
      match e with
      | number value => cases hfold
      | var name slot => rfl
      | neg a =>
          rw [emit, hfold, Instr.loads_append, loads_emit a]
          exact List.append_nil _
      | binary op a b =>
          rw [emit, hfold, Instr.loads_append, Instr.loads_append, loads_emit a, loads_emit b,
            occurrences, List.map_append]
          exact List.append_nil _
      | call f args =>
          rw [emit, hfold, Instr.loads_append, loads_emitAll args]
          exact List.append_nil _

theorem loads_emitAll (es : List Expr) :
    Instr.loads (emitAll es) = (occurrencesAll es).map Prod.snd := by
  match es with
  | [] => rfl
  | a :: as =>
      rw [emitAll, Instr.loads_append, loads_emit a, loads_emitAll as, occurrencesAll,
        List.map_append]

end

/-! ### Operands -/

variable {schema : Schema} {args : Array Double}

mutual

/-- The code of a tree is supplied on every stack. -/
theorem allSupplied_emit {e : Expr} (hsat : e.saturated)
    (hres : ∀ v ∈ e.occurrences, schema.slotOf? v.1 = some v.2) (hargs : args.size = schema.size)
    (s : Stack) : Instr.AllSupplied args s e.emit := by
  cases hfold : e.fold? with
  | some v =>
      rw [emit_of_fold? hfold]
      exact Instr.allSupplied_singleton trivial
  | none =>
      match e with
      | number value => cases hfold
      | var name slot =>
          have hslot : schema.slotOf? name = some slot := hres (name, slot) (by simp [occurrences])
          have hload : slot < args.size := hargs ▸ Schema.lt_size_of_slotOf? hslot
          exact Instr.allSupplied_singleton hload
      | neg a =>
          rw [emit, hfold]
          refine (allSupplied_emit (e := a) hsat hres hargs s).append
            (run_emit (e := a) hsat hres s) (Instr.allSupplied_singleton ?_)
          exact Nat.le_add_left 1 s.length
      | binary op a b =>
          obtain ⟨hsata, hsatb⟩ := Bool.and_eq_true_iff.mp hsat
          have hresa : ∀ v ∈ a.occurrences, schema.slotOf? v.1 = some v.2 :=
            fun v hv => hres v (List.mem_append_left _ hv)
          have hresb : ∀ v ∈ b.occurrences, schema.slotOf? v.1 = some v.2 :=
            fun v hv => hres v (List.mem_append_right _ hv)
          have hboth : Instr.run args b.emit (a.eval (schema.valueOf args) :: s) = _ :=
            run_emit hsatb hresb _
          rw [emit, hfold, List.append_assoc]
          refine (allSupplied_emit hsata hresa hargs s).append (run_emit hsata hresa s) ?_
          refine (allSupplied_emit hsatb hresb hargs _).append hboth
            (Instr.allSupplied_singleton ?_)
          exact Nat.le_add_left 2 s.length
      | call f as =>
          obtain ⟨hlength, hsats⟩ := Bool.and_eq_true_iff.mp hsat
          rw [emit, hfold]
          refine (allSupplied_emitAll hsats hres hargs s).append (run_emitAll hsats hres s)
            (Instr.allSupplied_singleton ?_)
          rw [Instr.Supplied, List.length_append, List.length_reverse, length_evalAll,
            ← beq_iff_eq.mp hlength]
          exact Nat.le_add_right _ _

theorem allSupplied_emitAll {es : List Expr} (hsat : saturatedAll es)
    (hres : ∀ v ∈ occurrencesAll es, schema.slotOf? v.1 = some v.2)
    (hargs : args.size = schema.size) (s : Stack) :
    Instr.AllSupplied args s (emitAll es) := by
  match es with
  | [] => exact Instr.allSupplied_nil
  | a :: as =>
      obtain ⟨hsata, hsats⟩ := Bool.and_eq_true_iff.mp hsat
      have hresa : ∀ v ∈ a.occurrences, schema.slotOf? v.1 = some v.2 :=
        fun v hv => hres v (List.mem_append_left _ hv)
      have hress : ∀ v ∈ occurrencesAll as, schema.slotOf? v.1 = some v.2 :=
        fun v hv => hres v (List.mem_append_right _ hv)
      exact (allSupplied_emit hsata hresa hargs s).append (run_emit hsata hresa s)
        (allSupplied_emitAll hsats hress hargs _)

end

end Expr

/-! ### Whole programs -/

namespace Program

variable [Arithmetic] {schema : Schema} {source : String} {p : Program} {args : Array Double}

/-- A program has the values of all its variables, each of its instructions is supplied, and one
value is left in the end. -/
structure Completes (p : Program) (args : Array Double) : Prop where
  arguments : args.size = p.arity
  supplied : Instr.AllSupplied args [] p.code
  result : ∃ value, Instr.run args p.code [] = some [value]

theorem completes_ofFormula (h : ofFormula schema source = .ok p)
    (hargs : args.size = schema.size) : p.Completes args := by
  obtain ⟨e, hparse, rfl⟩ := ofFormula_eq_ok_iff.mp h
  obtain ⟨hsat, hres⟩ := Expr.wellFormed_of_parse hparse
  exact ⟨hargs, Expr.allSupplied_emit hsat hres hargs [], _, Expr.run_emit hsat hres []⟩

theorem lt_size_of_load_mem (h : ofFormula schema source = .ok p) {slot : Nat}
    (hload : Instr.load slot ∈ p.code) : slot < schema.size := by
  obtain ⟨e, hparse, rfl⟩ := ofFormula_eq_ok_iff.mp h
  rw [← Instr.mem_loads, Expr.loads_emit] at hload
  obtain ⟨⟨name, _⟩, hoccurs, rfl⟩ := List.mem_map.mp hload
  exact Schema.lt_size_of_slotOf? ((Expr.wellFormed_of_parse hparse).resolved _ hoccurs)

end Program

end PenFilter
