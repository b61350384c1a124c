import Mathlib.Data.List.Forall2
import Mathlib.Data.List.Induction
import Mathlib.Data.List.Nodup
import PenFilter.Proofs.Formula.Operands

/-! # What is left of a tree after folding

A subtree without variables is computed when the program is made, and nothing else is.  A node is
kept (`Expr.Kept`) when a variable occurs at it or below it, or when it is the root of a greatest
subtree without variables.  The code of a tree has one instruction for each node that is kept and
no other (`Expr.Traces`), and `Expr.Gives` says which: the value of the whole subtree, or the
instruction of the node itself, right after the code of its operands.

Where the operands of an instruction come from is read in two ways.  They are the trees below its
node, whatever the tree is.  In a tree with saturated calls they are also what the instruction
finds on the stack: `Instr.makers` runs a code on the instructions themselves, so that each place
of the stack tells which instruction filled it (`Instr.AllSupplied.made`).  In neither way are all
of them constants. -/

namespace PenFilter

namespace Instr

/-- How many values an instruction takes off the stack. -/
def takes : Instr → Nat
  | const _ | load _ => 0
  | neg => 1
  | binary _ => 2
  | call f => f.arity

theorem Supplied.exists_step [Arithmetic] {args : Array Double} {s : Stack} {i : Instr}
    (h : i.Supplied args s) : ∃ value, i.step args s = some (value :: s.drop i.takes) := by
  cases i with
  | const value => exact ⟨_, rfl⟩
  | load slot => exact ⟨_, rfl⟩
  | neg =>
      obtain ⟨a, s, rfl⟩ := List.exists_cons_of_length_pos h
      exact ⟨_, rfl⟩
  | binary op =>
      match s, h with
      | b :: a :: s, _ => exact ⟨_, rfl⟩
  | call f => exact ⟨_, if_pos h⟩

/-- The stack after a code, with the instruction that made each value instead of the value. -/
def makers (stack code : List Instr) : List Instr :=
  code.foldl (fun stack i => i :: stack.drop i.takes) stack

theorem makers_append (stack code more : List Instr) :
    makers stack (code ++ more) = makers (makers stack code) more := List.foldl_append

/-- In a run whose instructions have their operands, each value on the stack was put there by the
instruction that `makers` has in its place. -/
theorem AllSupplied.made [Arithmetic] {args : Array Double} {code : List Instr} {t : Stack}
    (h : AllSupplied args [] code) (hrun : run args code [] = some t) :
    List.Forall₂ (fun value i => ∃ before after s, code = before ++ i :: after ∧
      run args before [] = some s ∧ i.step args s = some (value :: s.drop i.takes))
      t (makers [] code) := by
  induction code using List.reverseRecOn generalizing t with
  | nil =>
      cases hrun
      exact .nil
  | append_singleton code i ih =>
      obtain ⟨s, hs, hi⟩ := h code i [] rfl
      obtain ⟨value, hstep⟩ := hi.exists_step
      have hcode : AllSupplied args [] code := by
        intro before j after hsplit
        exact h before j (after ++ [i]) (by rw [hsplit, List.append_assoc, List.cons_append])
      rw [run_append, hs, Option.bind_some, run, hstep] at hrun
      cases hrun
      rw [makers_append]
      refine .cons ⟨code, [], s, rfl, hs, hstep⟩ (List.forall₂_drop _ ((ih hcode hs).imp ?_))
      rintro value j ⟨before, after, u, rfl, hu, hj⟩
      exact ⟨before, after ++ [i], u, List.append_assoc _ _ _, hu, hj⟩

end Instr

namespace Expr

/-! ### Subtrees -/

/-- The trees right below the root. -/
def operands : Expr → List Expr
  | number _ | var _ _ => []
  | neg a => [a]
  | binary _ a b => [a, b]
  | call _ args => args

mutual

/-- What holds of a tree when it holds of its operands holds of every tree. -/
theorem induction_operands {motive : Expr → Prop}
    (step : ∀ e, (∀ a ∈ e.operands, motive a) → motive e) (e : Expr) : motive e := by
  match e with
  | number value => exact step _ nofun
  | var name slot => exact step _ nofun
  | neg a =>
      have ha := induction_operands step a
      exact step _ (List.forall_mem_singleton.mpr ha)
  | binary op a b =>
      have ha := induction_operands step a
      have hb := induction_operands step b
      exact step _ (List.forall_mem_cons.mpr ⟨ha, List.forall_mem_singleton.mpr hb⟩)
  | call f args => exact step _ (forall_mem_induction_operands step args)

theorem forall_mem_induction_operands {motive : Expr → Prop}
    (step : ∀ e, (∀ a ∈ e.operands, motive a) → motive e) (es : List Expr) :
    ∀ a ∈ es, motive a := by
  match es with
  | [] => exact nofun
  | a :: as =>
      exact List.forall_mem_cons.mpr
        ⟨induction_operands step a, forall_mem_induction_operands step as⟩

end

/-- The subtree at a place, which tells the operand to take at each node from the root down. -/
def at? (e : Expr) : List Nat → Option Expr
  | [] => some e
  | i :: place => e.operands[i]?.bind fun a => a.at? place

/-- No subtree around the one at this place is without variables. -/
def Outermost (e : Expr) (place : List Nat) : Prop :=
  ∀ front i rest t, place = front ++ i :: rest → e.at? front = some t → t.isConstant = false

/-- The subtree at this place is `part`, and its root is kept: variables occur in it, or it is a
greatest subtree without variables. -/
def Kept (e : Expr) (place : List Nat) (part : Expr) : Prop :=
  e.at? place = some part ∧ (part.isConstant = false ∨ e.Outermost place)

variable {e a part : Expr} {place : List Nat} {i : Nat}

theorem occurrencesAll_eq_nil_iff {es : List Expr} :
    occurrencesAll es = [] ↔ ∀ a ∈ es, a.isConstant = true := by
  induction es with
  | nil => exact ⟨fun _ => nofun, fun _ => rfl⟩
  | cons a as ih =>
      rw [occurrencesAll, List.append_eq_nil_iff, ih, List.forall_mem_cons, isConstant,
        List.isEmpty_iff]

theorem isConstant_iff : e.isConstant = true ↔
    (∀ name slot, e ≠ var name slot) ∧ ∀ a ∈ e.operands, a.isConstant = true := by
  rw [← occurrencesAll_eq_nil_iff, isConstant, List.isEmpty_iff]
  cases e <;> simp [operands, occurrences, occurrencesAll]

theorem isConstant_eq_false_iff : e.isConstant = false ↔
    (∃ name slot, e = var name slot) ∨ ∃ a ∈ e.operands, a.isConstant = false := by
  rw [← Bool.not_eq_true, isConstant_iff]
  simp only [not_and_or, not_forall, not_not, Bool.not_eq_true, exists_prop]

theorem outermost_cons : e.Outermost (i :: place) ↔
    e.isConstant = false ∧ ∀ a, e.operands[i]? = some a → a.Outermost place := by
  constructor
  · intro h
    refine ⟨h [] i place e rfl rfl, ?_⟩
    intro a ha front j rest t hplace ht
    refine h (i :: front) j rest t (by rw [hplace, List.cons_append]) ?_
    rw [at?, ha, Option.bind_some, ht]
  · rintro ⟨hroot, hoperand⟩ front j rest t hplace ht
    cases front with
    | nil =>
        cases ht
        exact hroot
    | cons k front =>
        obtain ⟨rfl, hbelow⟩ := List.cons.inj hplace
        obtain ⟨a, ha, ht⟩ := Option.bind_eq_some_iff.mp ht
        exact hoperand a ha front j rest t hbelow ht

/-- Around a variable no subtree is without variables. -/
theorem outermost_of_at? (h : e.at? place = some part) (hpart : part.isConstant = false) :
    e.isConstant = false ∧ e.Outermost place := by
  induction place generalizing e with
  | nil =>
      cases h
      exact ⟨hpart, fun front i rest t hplace => by simp at hplace⟩
  | cons i place ih =>
      obtain ⟨a, ha, h⟩ := Option.bind_eq_some_iff.mp h
      obtain ⟨hconstant, houtermost⟩ := ih h
      have hroot : e.isConstant = false :=
        isConstant_eq_false_iff.mpr (.inr ⟨a, List.mem_of_getElem? ha, hconstant⟩)
      refine ⟨hroot, outermost_cons.mpr ⟨hroot, ?_⟩⟩
      intro b hb
      rw [ha] at hb
      cases hb
      exact houtermost

theorem kept_iff : e.Kept place part ↔ e.at? place = some part ∧ e.Outermost place := by
  refine ⟨fun ⟨hat, h⟩ => ⟨hat, ?_⟩, fun ⟨hat, h⟩ => ⟨hat, .inr h⟩⟩
  rcases h with hpart | h
  · exact (outermost_of_at? hat hpart).2
  · exact h

theorem kept_nil : e.Kept [] part ↔ part = e := by
  have houtermost : e.Outermost [] := fun front i rest t hplace => by simp at hplace
  rw [kept_iff, at?, Option.some.injEq, and_iff_left houtermost, eq_comm]

/-- What is kept below the root is kept in an operand, unless the whole tree is folded. -/
theorem kept_cons : e.Kept (i :: place) part ↔
    e.isConstant = false ∧ ∃ a, e.operands[i]? = some a ∧ a.Kept place part := by
  simp only [kept_iff]
  rw [outermost_cons, at?, Option.bind_eq_some_iff]
  constructor
  · rintro ⟨⟨a, ha, hat⟩, hroot, houtermost⟩
    exact ⟨hroot, a, ha, hat, houtermost a ha⟩
  · rintro ⟨hroot, a, ha, hat, houtermost⟩
    refine ⟨⟨a, ha, hat⟩, hroot, ?_⟩
    intro b hb
    rw [ha] at hb
    cases hb
    exact houtermost

theorem saturated_of_mem {es : List Expr} (h : saturatedAll es) (ha : a ∈ es) : a.saturated := by
  induction es with
  | nil => cases ha
  | cons b bs ih =>
      obtain ⟨hb, hbs⟩ := Bool.and_eq_true_iff.mp h
      rcases List.mem_cons.mp ha with rfl | ha
      · exact hb
      · exact ih hbs ha

theorem saturated_of_mem_operands (h : e.saturated) (ha : a ∈ e.operands) : a.saturated := by
  cases e with
  | number value => cases ha
  | var name slot => cases ha
  | neg b =>
      obtain rfl := List.mem_singleton.mp ha
      exact h
  | binary op b c =>
      have hsat : saturatedAll [b, c] := by simpa [saturatedAll, saturated] using h
      exact saturated_of_mem hsat ha
  | call f args => exact saturated_of_mem (Bool.and_eq_true_iff.mp h).2 ha

theorem saturated_of_at? (hsat : e.saturated) (h : e.at? place = some part) : part.saturated := by
  induction place generalizing e with
  | nil =>
      cases h
      exact hsat
  | cons i place ih =>
      obtain ⟨a, ha, h⟩ := Option.bind_eq_some_iff.mp h
      exact ih (saturated_of_mem_operands hsat (List.mem_of_getElem? ha)) h

variable [Arithmetic]

/-! ### Folding -/

theorem exists_foldAll? {es : List Expr} (h : ∀ a ∈ es, ∃ v, a.fold? = some v) :
    ∃ vs, foldAll? es = some vs := by
  induction es with
  | nil => exact ⟨[], rfl⟩
  | cons a as ih =>
      obtain ⟨⟨v, hv⟩, has⟩ := List.forall_mem_cons.mp h
      obtain ⟨vs, hvs⟩ := ih has
      exact ⟨v :: vs, by rw [foldAll?, hv, hvs]; rfl⟩

theorem exists_fold? (h : e.isConstant = true) : ∃ v, e.fold? = some v := by
  induction e using induction_operands with
  | step e ih =>
  obtain ⟨hvar, hoperands⟩ := isConstant_iff.mp h
  have hfold : ∀ a ∈ e.operands, ∃ v, a.fold? = some v := fun a ha => ih a ha (hoperands a ha)
  cases e with
  | number value => exact ⟨_, rfl⟩
  | var name slot => exact absurd rfl (hvar name slot)
  | neg a =>
      obtain ⟨v, hv⟩ := List.forall_mem_singleton.mp hfold
      exact ⟨_, by rw [fold?, hv]; rfl⟩
  | binary op a b =>
      obtain ⟨⟨v, hv⟩, hb⟩ := List.forall_mem_cons.mp hfold
      obtain ⟨w, hw⟩ := List.forall_mem_singleton.mp hb
      exact ⟨_, by rw [fold?, hv, hw]; rfl⟩
  | call f args =>
      obtain ⟨vs, hvs⟩ : ∃ vs, foldAll? args = some vs := exists_foldAll? hfold
      exact ⟨_, by rw [fold?, hvs]; rfl⟩

theorem isSome_fold? (e : Expr) : e.fold?.isSome = e.isConstant := by
  cases hconst : e.isConstant with
  | true =>
      obtain ⟨v, hv⟩ := exists_fold? hconst
      rw [hv]
      rfl
  | false =>
      rw [Bool.eq_false_iff] at hconst ⊢
      intro hsome
      obtain ⟨v, hv⟩ := Option.isSome_iff_exists.mp hsome
      exact hconst (by rw [isConstant, occurrences_of_fold? hv]; rfl)

/-! ### The instruction of a node -/

/-- The instruction that a node comes to. -/
inductive Gives : Expr → Instr → Prop
  | const {e : Expr} {v : Complex} (constant : e.isConstant = true)
      (value : ∀ env, e.eval env = v) : Gives e (.const v)
  | load (name : String) (slot : Nat) : Gives (var name slot) (.load slot)
  | neg {a : Expr} (h : a.neg.isConstant = false) : Gives a.neg .neg
  | binary {op : Operator} {a b : Expr} (h : (binary op a b).isConstant = false) :
      Gives (binary op a b) (.binary op)
  | call {f : Builtin} {args : List Expr} (h : (call f args).isConstant = false) :
      Gives (call f args) (.call f)

variable {instr : Instr}

theorem Gives.ne_const (h : e.Gives instr) (he : e.isConstant = false) (v : Complex) :
    instr ≠ .const v := by
  rintro rfl
  cases h with
  | const hconst _ => cases hconst.symm.trans he

/-- An instruction with operands belongs to a node with a variable below it. -/
theorem Gives.exists_operand (h : e.Gives instr) (htakes : 0 < instr.takes) :
    e.isConstant = false ∧ ∃ a ∈ e.operands, a.isConstant = false := by
  have hroot : e.isConstant = false := by
    cases h with
    | const => cases htakes
    | load => cases htakes
    | neg h | binary h | call h => exact h
  rcases isConstant_eq_false_iff.mp hroot with ⟨name, slot, rfl⟩ | hoperand
  · cases h with
    | const => cases htakes
    | load => cases htakes
  · exact ⟨hroot, hoperand⟩

theorem Gives.takes_eq (h : e.Gives instr) (he : e.isConstant = false) (hsat : e.saturated) :
    instr.takes = e.operands.length := by
  cases h with
  | const hconst _ => cases hconst.symm.trans he
  | load => rfl
  | neg => rfl
  | binary => rfl
  | call => exact (beq_iff_eq.mp (Bool.and_eq_true_iff.mp hsat).1).symm

/-- The code of a tree without variables is its value. -/
theorem emit_of_isConstant (h : e.isConstant = true) :
    ∃ v, e.emit = [.const v] ∧ e.Gives (.const v) := by
  obtain ⟨v, hv⟩ := exists_fold? h
  exact ⟨v, emit_of_fold? hv, .const h fun env => eval_of_fold? env hv⟩

/-- In the code of any other tree the instruction of the root follows the code of its operands. -/
theorem emit_of_not_isConstant (h : e.isConstant = false) :
    ∃ instr, e.emit = emitAll e.operands ++ [instr] ∧ e.Gives instr := by
  have hfold : e.fold? = none := by
    rw [← Option.isSome_eq_false_iff.trans Option.isNone_iff_eq_none, isSome_fold?, h]
  cases e with
  | number value => cases hfold
  | var name slot => exact ⟨_, rfl, .load name slot⟩
  | neg a =>
      refine ⟨_, ?_, .neg h⟩
      rw [emit, hfold, operands, emitAll, emitAll, List.append_nil]
  | binary op a b =>
      refine ⟨_, ?_, .binary h⟩
      rw [emit, hfold, operands, emitAll, emitAll, emitAll, List.append_nil]
  | call f args =>
      refine ⟨_, ?_, .call h⟩
      rw [emit, hfold, operands]

theorem emit_ne_const (h : e.isConstant = false) (v : Complex) : e.emit ≠ [.const v] := by
  obtain ⟨instr, hemit, hgives⟩ := emit_of_not_isConstant h
  rw [hemit]
  intro heq
  obtain ⟨-, hlast⟩ := List.append_inj' (heq.trans (List.nil_append _).symm) rfl
  exact hgives.ne_const h v (List.singleton_inj.mp hlast)

/-! ### One instruction for each node that is kept -/

/-- The instructions of a code are those of the nodes at certain places, one for each. -/
structure Traces (nodes : List Nat → Expr → Prop) (places : List (List Nat)) (code : List Instr) :
    Prop where
  nodup : places.Nodup
  mem_iff : ∀ place, place ∈ places ↔ ∃ part, nodes place part
  gives : List.Forall₂ (fun place instr => ∃ part, nodes place part ∧ part.Gives instr) places code

variable {nodes others : List Nat → Expr → Prop} {places more : List (List Nat)}
  {code rest before after : List Instr}

theorem Traces.of_iff (h : Traces nodes places code)
    (hiff : ∀ place part, nodes place part ↔ others place part) : Traces others places code := by
  obtain rfl : nodes = others := funext₂ fun place part => propext (hiff place part)
  exact h

theorem Traces.nil (h : ∀ place part, ¬ nodes place part) : Traces nodes [] [] :=
  ⟨List.nodup_nil, fun place => by simp [h], .nil⟩

theorem Traces.root (h : e.Gives instr) :
    Traces (fun place part => place = [] ∧ part = e) [[]] [instr] :=
  ⟨List.nodup_singleton _, fun place => by simp, .cons ⟨e, ⟨rfl, rfl⟩, h⟩ .nil⟩

theorem Traces.below (h : Traces nodes places code) (i : Nat) :
    Traces (fun place part => ∃ below, place = i :: below ∧ nodes below part)
      (places.map (i :: ·)) code where
  nodup := h.nodup.map List.cons_injective
  mem_iff := by
    intro place
    simp only [List.mem_map, h.mem_iff]
    constructor
    · rintro ⟨below, ⟨part, hpart⟩, rfl⟩
      exact ⟨part, below, rfl, hpart⟩
    · rintro ⟨part, below, rfl, hpart⟩
      exact ⟨below, ⟨part, hpart⟩, rfl⟩
  gives := by
    rw [List.forall₂_map_left_iff]
    refine h.gives.imp ?_
    rintro below instr ⟨part, hpart, hgives⟩
    exact ⟨part, ⟨below, rfl, hpart⟩, hgives⟩

theorem Traces.append (h : Traces nodes places code) (hmore : Traces others more rest)
    (hdisjoint : ∀ place part other, nodes place part → ¬ others place other) :
    Traces (fun place part => nodes place part ∨ others place part) (places ++ more)
      (code ++ rest) where
  nodup := by
    refine List.nodup_append'.mpr ⟨h.nodup, hmore.nodup, ?_⟩
    intro place hplace hother
    obtain ⟨part, hpart⟩ := (h.mem_iff place).mp hplace
    obtain ⟨other, hother⟩ := (hmore.mem_iff place).mp hother
    exact hdisjoint place part other hpart hother
  mem_iff := by
    intro place
    rw [List.mem_append, h.mem_iff, hmore.mem_iff, exists_or]
  gives := by
    refine List.rel_append (h.gives.imp ?_) (hmore.gives.imp ?_)
    · rintro place instr ⟨part, hpart, hgives⟩
      exact ⟨part, .inl hpart, hgives⟩
    · rintro place instr ⟨part, hpart, hgives⟩
      exact ⟨part, .inr hpart, hgives⟩

/-- The nodes that are kept in the trees of a list, where a place begins with the position in the
list. -/
def KeptAll (es : List Expr) (place : List Nat) (part : Expr) : Prop :=
  ∃ i a below, place = i :: below ∧ es[i]? = some a ∧ a.Kept below part

theorem emitAll_append (es fs : List Expr) : emitAll (es ++ fs) = emitAll es ++ emitAll fs := by
  induction es with
  | nil => rfl
  | cons a as ih => rw [List.cons_append, emitAll, ih, emitAll, List.append_assoc]

theorem exists_traces_emitAll {es : List Expr}
    (h : ∀ a ∈ es, ∃ places, Traces a.Kept places a.emit) :
    ∃ places, Traces (KeptAll es) places (emitAll es) := by
  -- from the end of the list, so that what comes before keeps its places
  induction es using List.reverseRecOn with
  | nil => exact ⟨[], .nil fun place part ⟨i, a, below, _, ha, _⟩ => by simp at ha⟩
  | append_singleton es a ih =>
      obtain ⟨hes, ha⟩ := List.forall_mem_append.mp h
      obtain ⟨places, hplaces⟩ := ih hes
      obtain ⟨more, hmore⟩ := List.forall_mem_singleton.mp ha
      have hcode : emitAll (es ++ [a]) = emitAll es ++ a.emit := by
        rw [emitAll_append, emitAll, emitAll, List.append_nil]
      rw [hcode]
      refine ⟨_, (hplaces.append (hmore.below es.length) ?_).of_iff ?_⟩
      · rintro place part other ⟨i, b, below, rfl, hb, -⟩ ⟨below', heq, -⟩
        obtain ⟨hlt, -⟩ := List.getElem?_eq_some_iff.mp hb
        cases heq
        exact absurd hlt (Nat.lt_irrefl _)
      · intro place part
        constructor
        · rintro (⟨i, b, below, rfl, hb, hkept⟩ | ⟨below, rfl, hkept⟩)
          · obtain ⟨hlt, -⟩ := List.getElem?_eq_some_iff.mp hb
            exact ⟨i, b, below, rfl, by rw [List.getElem?_append_left hlt, hb], hkept⟩
          · exact ⟨es.length, a, below, rfl, List.getElem?_concat_length, hkept⟩
        · rintro ⟨i, b, below, rfl, hb, hkept⟩
          rcases Nat.lt_or_ge i es.length with hlt | hge
          · rw [List.getElem?_append_left hlt] at hb
            exact .inl ⟨i, b, below, rfl, hb, hkept⟩
          · rw [List.getElem?_append_right hge, List.getElem?_singleton] at hb
            split at hb
            · cases hb
              obtain rfl : i = es.length := by omega
              exact .inr ⟨below, rfl, hkept⟩
            · cases hb

/-- The code of a tree has one instruction for each node that is kept. -/
theorem exists_traces_emit (e : Expr) : ∃ places, Traces e.Kept places e.emit := by
  induction e using induction_operands with
  | step e ih =>
  cases hconst : e.isConstant with
  | true =>
      obtain ⟨v, hemit, hgives⟩ := emit_of_isConstant hconst
      rw [hemit]
      refine ⟨_, (Traces.root hgives).of_iff ?_⟩
      intro place part
      cases place with
      | nil => simp [kept_nil]
      | cons i place => simp [kept_cons, hconst]
  | false =>
      obtain ⟨instr, hemit, hgives⟩ := emit_of_not_isConstant hconst
      obtain ⟨places, hplaces⟩ := exists_traces_emitAll ih
      rw [hemit]
      refine ⟨_, (hplaces.append (Traces.root hgives) ?_).of_iff ?_⟩
      · rintro place part other ⟨i, a, below, rfl, -⟩ ⟨heq, -⟩
        cases heq
      · intro place part
        cases place with
        | nil => simp [kept_nil, KeptAll]
        | cons i place => simp [kept_cons, hconst, KeptAll]

/-! ### The operands of an instruction -/

theorem exists_operand_of_emitAll {es : List Expr} (h : emitAll es = before ++ instr :: after) :
    ∃ (i : Nat) (a : Expr) (front begun ended : List Instr), es[i]? = some a ∧
      before = front ++ begun ∧ a.emit = begun ++ instr :: ended := by
  induction es generalizing before with
  | nil => cases before <;> cases h
  | cons a as ih =>
      rcases Instr.append_cases h with ⟨ended, hfirst⟩ | ⟨more, rfl, hmore⟩
      · exact ⟨0, a, [], before, ended, rfl, rfl, hfirst⟩
      · obtain ⟨i, b, front, begun, ended, hb, rfl, hemit⟩ := ih hmore
        exact ⟨i + 1, b, a.emit ++ front, begun, ended, hb,
          (List.append_assoc _ _ _).symm, hemit⟩

/-- Up to an instruction the code of a tree ends with the code of a subtree, the one that the
instruction belongs to. -/
theorem exists_kept_of_emit (h : e.emit = before ++ instr :: after) :
    ∃ place part front, e.Kept place part ∧ part.Gives instr ∧
      before ++ [instr] = front ++ part.emit := by
  induction e using induction_operands generalizing before after with
  | step e ih =>
  cases hconst : e.isConstant with
  | true =>
      obtain ⟨v, hemit, hgives⟩ := emit_of_isConstant hconst
      rw [hemit] at h
      cases before with
      | nil =>
          cases h
          exact ⟨[], e, [], kept_nil.mpr rfl, hgives, hemit.symm⟩
      | cons j before => cases before <;> cases h
  | false =>
      obtain ⟨own, hemit, hgives⟩ := emit_of_not_isConstant hconst
      rw [hemit] at h
      rcases Instr.append_cases h with ⟨rest, hrest⟩ | ⟨front, rfl, hlast⟩
      · obtain ⟨i, a, front, begun, ended, ha, rfl, hemita⟩ := exists_operand_of_emitAll hrest
        obtain ⟨place, part, front', hkept, hpart, hcode⟩ :=
          ih a (List.mem_of_getElem? ha) hemita
        refine ⟨i :: place, part, front ++ front', kept_cons.mpr ⟨hconst, a, ha, hkept⟩, hpart, ?_⟩
        rw [List.append_assoc, hcode, List.append_assoc]
      · cases front with
        | nil =>
            cases hlast
            refine ⟨[], e, [], kept_nil.mpr rfl, hgives, ?_⟩
            rw [hemit, List.append_nil, List.nil_append]
        | cons j front => cases front <;> cases hlast

theorem makers_emitAll {es : List Expr}
    (h : ∀ a ∈ es, ∀ stack, ∃ instr, a.Gives instr ∧ Instr.makers stack a.emit = instr :: stack)
    (stack : List Instr) :
    ∃ made, made.length = es.length ∧ (∀ a ∈ es, ∃ instr ∈ made, a.Gives instr) ∧
      Instr.makers stack (emitAll es) = made ++ stack := by
  induction es generalizing stack with
  | nil => exact ⟨[], rfl, nofun, rfl⟩
  | cons a as ih =>
      obtain ⟨ha, has⟩ := List.forall_mem_cons.mp h
      obtain ⟨instr, hgives, hmade⟩ := ha stack
      obtain ⟨made, hlength, hmem, hrest⟩ := ih has (instr :: stack)
      refine ⟨made ++ [instr], by simp [hlength], ?_, ?_⟩
      · refine List.forall_mem_cons.mpr ⟨⟨instr, by simp, hgives⟩, ?_⟩
        intro b hb
        obtain ⟨j, hj, hgivesj⟩ := hmem b hb
        exact ⟨j, List.mem_append_left _ hj, hgivesj⟩
      · rw [emitAll, Instr.makers_append, hmade, hrest, List.append_assoc, List.singleton_append]

/-- The value of a tree with saturated calls is made by the instruction of its root. -/
theorem makers_emit (hsat : e.saturated) (stack : List Instr) :
    ∃ instr, e.Gives instr ∧ Instr.makers stack e.emit = instr :: stack := by
  induction e using induction_operands generalizing stack with
  | step e ih =>
  cases hconst : e.isConstant with
  | true =>
      obtain ⟨v, hemit, hgives⟩ := emit_of_isConstant hconst
      exact ⟨_, hgives, by rw [hemit]; rfl⟩
  | false =>
      obtain ⟨instr, hemit, hgives⟩ := emit_of_not_isConstant hconst
      obtain ⟨made, hlength, -, hmade⟩ := makers_emitAll
        (fun a ha stack => ih a ha (saturated_of_mem_operands hsat ha) stack) stack
      refine ⟨instr, hgives, ?_⟩
      rw [hemit, Instr.makers_append, hmade]
      show instr :: (made ++ stack).drop instr.takes = instr :: stack
      rw [hgives.takes_eq hconst hsat, ← hlength, List.drop_left]

/-- What folding makes of a tree. -/
structure FoldedTo (e : Expr) (code : List Instr) : Prop where
  /-- one instruction for each node that is kept -/
  traces : ∃ places, Traces e.Kept places code
  /-- an instruction with operands follows the code of the trees below its node, and the code of
  one of them is not a constant -/
  operands : ∀ before instr after, code = before ++ instr :: after → 0 < instr.takes →
    ∃ place part front, e.Kept place part ∧ part.Gives instr ∧
      before = front ++ emitAll part.operands ∧ ∃ a ∈ part.operands, ∀ v, a.emit ≠ [.const v]
  /-- one of the values that an instruction takes off the stack was not made by a constant -/
  makers : e.saturated → ∀ before instr after, code = before ++ instr :: after →
    0 < instr.takes → ∃ made ∈ (Instr.makers [] before).take instr.takes, ∀ v, made ≠ .const v
  /-- the variables are loaded in reading order -/
  loads : Instr.loads code = e.occurrences.map Prod.snd

theorem foldedTo_emit (e : Expr) : e.FoldedTo e.emit := by
  have hoperands : ∀ before instr after, e.emit = before ++ instr :: after → 0 < instr.takes →
      ∃ place part front, e.Kept place part ∧ part.Gives instr ∧ part.isConstant = false ∧
        before = front ++ emitAll part.operands ∧ ∃ a ∈ part.operands, a.isConstant = false := by
    intro before instr after h htakes
    obtain ⟨place, part, front, hkept, hgives, hcode⟩ := exists_kept_of_emit h
    obtain ⟨hpart, hoperand⟩ := hgives.exists_operand htakes
    obtain ⟨own, hemit, -⟩ := emit_of_not_isConstant hpart
    rw [hemit, ← List.append_assoc] at hcode
    exact ⟨place, part, front, hkept, hgives, hpart, (List.append_inj' hcode rfl).1, hoperand⟩
  refine ⟨e.exists_traces_emit, ?_, ?_, e.loads_emit⟩
  · intro before instr after h htakes
    obtain ⟨place, part, front, hkept, hgives, -, hbefore, a, ha, hconst⟩ :=
      hoperands before instr after h htakes
    exact ⟨place, part, front, hkept, hgives, hbefore, a, ha, emit_ne_const hconst⟩
  · intro hsat before instr after h htakes
    obtain ⟨place, part, front, hkept, hgives, hpart, rfl, a, ha, hconst⟩ :=
      hoperands before instr after h htakes
    have hsatpart : part.saturated := saturated_of_at? hsat hkept.1
    obtain ⟨made, hlength, hmem, hmade⟩ := makers_emitAll
      (fun b hb stack => makers_emit (saturated_of_mem_operands hsatpart hb) stack)
      (Instr.makers [] front)
    obtain ⟨j, hj, hgivesj⟩ := hmem a ha
    refine ⟨j, ?_, hgivesj.ne_const hconst⟩
    rw [Instr.makers_append, hmade, hgives.takes_eq hpart hsatpart, ← hlength, List.take_left]
    exact hj

end Expr

/-! ### Whole programs -/

namespace Program

section

variable [Arithmetic]

/-- **Folding is complete and touches nothing else**: exactly the trees without variables are
folded, and the code of a program has one constant for each greatest subtree without variables,
one instruction for each node with a variable at it or below it, no instruction with constants
alone for its operands, and the loads of the variables in reading order. -/
theorem foldedTo_ofExpr (e : Expr) :
    e.fold?.isSome = e.isConstant ∧
      ∀ schema p, ofExpr schema e = .ok p → e.FoldedTo p.code := by
  refine ⟨e.isSome_fold?, ?_⟩
  intro schema p h
  obtain ⟨-, rfl⟩ := ofSource_eq_ok_iff.mp h
  exact e.foldedTo_emit

end

/-- The theorem at `x * (2 + 1) - sin(2)`, where a group and a call are folded. -/
theorem foldedTo_ofExpr_group :
    let e : Expr := .binary .sub
      (.binary .mul (.var "x" 0) (.binary .add (.number .two) (.number .one)))
      (.call .sin [.number .two])
    let code : List Instr := [.load 0, .const (.ofReal .two + .ofReal .one), .binary .mul,
      .const (.sin (.ofReal .two)), .binary .sub]
    ofExpr (.ofList ["x"]) e = .ok ⟨e.text, 1, code, 2⟩ ∧ e.fold?.isSome = false ∧
      e.FoldedTo code := by
  intro e code
  have hcompile : ofExpr (.ofList ["x"]) e = .ok ⟨e.text, 1, code, 2⟩ :=
    ofSource_eq_ok_iff.mpr ⟨by decide, rfl⟩
  obtain ⟨hfold, hfolded⟩ := foldedTo_ofExpr e
  exact ⟨hcompile, hfold, hfolded _ _ hcompile⟩

end Program

end PenFilter
