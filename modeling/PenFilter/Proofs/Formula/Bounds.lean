import PenFilter.Proofs.Formula.Height

/-! # How large the program of a formula gets

The parser limits two things, the number of operations of a tree and the height of its derivation.
They bound everything else about a program:

* the operations bound the nodes of the tree, since no function takes more than three arguments
  (`Expr.nodeCount_le`), and the nodes bound the code (`Expr.length_emit_le`);
* the height bounds the room on the stack (`Grammar.Sum.fitsIn`).  One more level of a derivation
  costs two values: inside a group one operand of a sum and one of a product are waiting, and a
  call, where two more arguments are waiting, counts for two levels.

`Program.bounded_ofFormula` puts the limits in. -/

namespace PenFilter

namespace Builtin

theorem arity_le_three (f : Builtin) : f.arity ≤ 3 := by cases f <;> decide

end Builtin

namespace Expr

/-! ### Nodes and instructions -/

theorem one_le_nodeCount (e : Expr) : 1 ≤ e.nodeCount := by
  cases e <;> simp only [nodeCount] <;> omega

mutual

/-- A tree has at most three nodes for each of its operations, and one more. -/
theorem nodeCount_le {e : Expr} (hsat : e.saturated) : e.nodeCount ≤ 3 * e.operations + 1 := by
  match e with
  | number value => exact Nat.le_refl 1
  | var name slot => exact Nat.le_refl 1
  | neg a =>
      have ha : a.nodeCount ≤ 3 * a.operations + 1 := nodeCount_le (e := a) hsat
      simp only [nodeCount, operations]
      omega
  | binary op a b =>
      obtain ⟨hsata, hsatb⟩ := Bool.and_eq_true_iff.mp hsat
      have ha := nodeCount_le hsata
      have hb := nodeCount_le hsatb
      simp only [nodeCount, operations]
      omega
  | call f args =>
      obtain ⟨hlength, hsats⟩ := Bool.and_eq_true_iff.mp hsat
      have hargs := nodeCountAll_le hsats
      have harity := f.arity_le_three
      rw [← beq_iff_eq.mp hlength] at harity
      simp only [nodeCount, operations]
      omega

theorem nodeCountAll_le {es : List Expr} (hsat : saturatedAll es) :
    nodeCountAll es ≤ 3 * operationsAll es + es.length := by
  match es with
  | [] => exact Nat.le_refl 0
  | a :: as =>
      obtain ⟨hsata, hsats⟩ := Bool.and_eq_true_iff.mp hsat
      have ha := nodeCount_le hsata
      have has := nodeCountAll_le hsats
      simp only [nodeCountAll, operationsAll, List.length_cons]
      omega

end

variable [Arithmetic]

mutual

/-- Each instruction of a tree belongs to a node of its own. -/
theorem length_emit_le (e : Expr) : e.emit.length ≤ e.nodeCount := by
  cases hfold : e.fold? with
  | some v =>
      rw [emit_of_fold? hfold]
      exact e.one_le_nodeCount
  | none =>
      match e with
      | number value => cases hfold
      | var name slot => exact Nat.le_refl 1
      | neg a =>
          have ha := length_emit_le a
          rw [emit, hfold, List.length_append, List.length_singleton, nodeCount]
          omega
      | binary op a b =>
          have ha := length_emit_le a
          have hb := length_emit_le b
          rw [emit, hfold, List.length_append, List.length_append, List.length_singleton, nodeCount]
          omega
      | call f args =>
          have hargs := length_emitAll_le args
          rw [emit, hfold, List.length_append, List.length_singleton, nodeCount]
          omega

theorem length_emitAll_le (es : List Expr) : (emitAll es).length ≤ nodeCountAll es := by
  match es with
  | [] => exact Nat.le_refl 0
  | a :: as =>
      have ha := length_emit_le a
      have has := length_emitAll_le as
      rw [emitAll, List.length_append, nodeCountAll]
      omega

end

/-! ### Room on the stack -/

theorem WellFormed.heightAfterAll_emit {schema : Schema} {e : Expr} (h : e.WellFormed schema)
    (height : Nat) : Instr.heightAfterAll height e.emit = height + 1 := by
  let s : Stack := List.replicate height .nan
  have hrun : Instr.run #[] e.emit s = some (e.eval (schema.valueOf #[]) :: s) :=
    run_emit h.saturated h.resolved s
  have hlength := Instr.length_of_run hrun
  rw [List.length_cons, List.length_replicate] at hlength
  exact hlength.symm

/-- The code of a tree needs room for at most `room` values, whatever is on the stack before. -/
def FitsIn (room : Nat) (e : Expr) : Prop :=
  ∀ height, Instr.peak height e.emit ≤ height + room

variable {schema : Schema} {m n room : Nat} {a b e : Expr}

theorem FitsIn.mono (h : e.FitsIn m) (hmn : m ≤ n) : e.FitsIn n := fun height =>
  (h height).trans (Nat.add_le_add_left hmn height)

theorem FitsIn.pos (h : e.FitsIn room) (hwell : e.WellFormed schema) : 1 ≤ room := by
  have hpeak := h 0
  have hend := Instr.heightAfterAll_le_peak 0 e.emit
  rw [hwell.heightAfterAll_emit] at hend
  omega

theorem fitsIn_of_fold? {v : Complex} (h : e.fold? = some v) : e.FitsIn 1 := by
  intro height
  rw [emit_of_fold? h]
  exact max_le (Nat.le_add_right height 1) (Nat.le_refl (height + 1))

theorem fitsIn_number (value : Double) : (number value).FitsIn 1 := fitsIn_of_fold? rfl

theorem fitsIn_var (name : String) (slot : Nat) : (var name slot).FitsIn 1 := fun height =>
  max_le (Nat.le_add_right height 1) (Nat.le_refl (height + 1))

theorem FitsIn.neg (ha : a.FitsIn room) (hwell : a.WellFormed schema) : a.neg.FitsIn room := by
  have hpos := ha.pos hwell
  cases hfold : a.neg.fold? with
  | some v => exact (fitsIn_of_fold? hfold).mono hpos
  | none =>
      intro height
      have hpeak := ha height
      rw [emit, hfold, Instr.peak_append, hwell.heightAfterAll_emit]
      simp only [Instr.peak, Instr.heightAfter]
      omega

/-- The left operand waits on the stack while the right one is computed. -/
theorem FitsIn.binary {op : Operator} (ha : a.FitsIn m) (hb : b.FitsIn n)
    (hwella : a.WellFormed schema) (hwellb : b.WellFormed schema) (hm : m ≤ room)
    (hn : n + 1 ≤ room) : (binary op a b).FitsIn room := by
  have hpos := hb.pos hwellb
  cases hfold : (Expr.binary op a b).fold? with
  | some v => exact (fitsIn_of_fold? hfold).mono (by omega)
  | none =>
      intro height
      have hpeak := ha height
      have hpeak' := hb (height + 1)
      rw [emit, hfold, Instr.peak_append, Instr.heightAfterAll_append, Instr.peak_append,
        hwella.heightAfterAll_emit, hwellb.heightAfterAll_emit]
      simp only [Instr.peak, Instr.heightAfter]
      omega

/-- The arguments before the last one wait on the stack while that one is computed. -/
theorem peak_emitAll_le {es : List Expr} (hfits : ∀ a ∈ es, a.FitsIn room)
    (hwell : ∀ a ∈ es, a.WellFormed schema) (height : Nat) :
    Instr.peak height (emitAll es) ≤ height + (room + (es.length - 1)) ∧
      Instr.heightAfterAll height (emitAll es) = height + es.length := by
  induction es generalizing height with
  | nil => exact ⟨Nat.le_add_right _ _, rfl⟩
  | cons a as ih =>
      obtain ⟨hfit, hfits⟩ := List.forall_mem_cons.mp hfits
      obtain ⟨hone, hwell⟩ := List.forall_mem_cons.mp hwell
      obtain ⟨hpeak, hend⟩ := ih hfits hwell (height + 1)
      have hfirst := hfit height
      rw [emitAll, Instr.peak_append, Instr.heightAfterAll_append, hone.heightAfterAll_emit, hend,
        List.length_cons]
      refine ⟨?_, by omega⟩
      cases as with
      | nil =>
          have hpos := hfit.pos hone
          simp only [emitAll, Instr.peak, List.length_nil]
          omega
      | cons b bs =>
          rw [List.length_cons] at hpeak ⊢
          omega

theorem FitsIn.call {f : Builtin} {args : List Expr} (hfits : ∀ a ∈ args, a.FitsIn n)
    (hwell : ∀ a ∈ args, a.WellFormed schema) (hlength : args.length = f.arity)
    (hn : n + 2 ≤ room) : (call f args).FitsIn room := by
  cases hfold : (Expr.call f args).fold? with
  | some v => exact (fitsIn_of_fold? hfold).mono (by omega)
  | none =>
      intro height
      obtain ⟨hpeak, hend⟩ := peak_emitAll_le hfits hwell height
      have harity := f.arity_le_three
      have hused := Instr.heightAfterAll_le_peak height (emitAll args)
      rw [emit, hfold, Instr.peak_append, hend]
      simp only [Instr.peak, Instr.heightAfter]
      omega

end Expr

namespace Grammar

open PenFilter.Expr

variable [Arithmetic] {schema : Schema}

mutual

/-- A sum needs two values for each level of its derivation, and one more. -/
theorem Sum.fitsIn {n ts e} (h : Sum schema n ts e) : e.FitsIn (2 * n + 1) := by
  match h with
  | .product h => exact h.fitsIn.mono (by omega)
  | .add ha hb | .sub ha hb =>
      exact ha.fitsIn.binary hb.fitsIn ha.wellFormed hb.wellFormed (by omega) (by omega)

theorem Product.fitsIn {n ts e} (h : Product schema n ts e) : e.FitsIn (2 * n) := by
  match h with
  | .signed h => exact h.fitsIn.mono (by omega)
  | .mul ha hb | .div ha hb | .implied ha hb _ _ _ =>
      have hpos := hb.fitsIn.pos hb.wellFormed
      exact ha.fitsIn.binary hb.fitsIn ha.wellFormed hb.wellFormed (by omega) (by omega)

theorem Signed.fitsIn {n ts e} (h : Signed schema n ts e) : e.FitsIn (2 * n - 1) := by
  match h with
  | .power h => exact h.fitsIn.mono (by omega)
  | .minus h => exact (h.fitsIn.neg h.wellFormed).mono (by omega)
  | .plus h => exact h.fitsIn.mono (by omega)

theorem Power.fitsIn {n ts e} (h : Power schema n ts e) : e.FitsIn (2 * n + 1) := by
  match h with
  | .primary h => exact h.fitsIn
  | .pow ha hb =>
      have hpos := hb.fitsIn.pos hb.wellFormed
      exact ha.fitsIn.binary hb.fitsIn ha.wellFormed hb.wellFormed (by omega) (by omega)

theorem Primary.fitsIn {n ts e} (h : Primary schema n ts e) : e.FitsIn (2 * n + 1) := by
  match h with
  | .number value => exact fitsIn_number value
  | .pi _ => exact fitsIn_number .pi
  | .e _ => exact fitsIn_number .e
  | @Primary.var _ name slot _ => exact fitsIn_var name slot
  | .call _ h hlength =>
      exact FitsIn.call (fun a ha => (h.fitsIn a ha).1) (fun a ha => (h.fitsIn a ha).2) hlength
        (by omega)
  | .group h => exact h.fitsIn

theorem Arguments.fitsIn {n ts args} (h : Arguments schema n ts args) :
    ∀ a ∈ args, a.FitsIn (2 * n + 1) ∧ a.WellFormed schema := by
  match h with
  | .one h => exact List.forall_mem_singleton.mpr ⟨h.fitsIn, h.wellFormed⟩
  | .more hargs hlast =>
      rw [List.forall_mem_append, List.forall_mem_singleton]
      refine ⟨fun a ha => ⟨(hargs.fitsIn a ha).1.mono (by omega), (hargs.fitsIn a ha).2⟩, ?_⟩
      exact ⟨hlast.fitsIn.mono (by omega), hlast.wellFormed⟩

end

end Grammar

/-! ### Whole programs -/

namespace Program

section

variable [Arithmetic]

/-- **Accepted formulas have bounded code and stack**: whatever the text and the schema are, the
tree of a formula that is compiled has at most 1024 operations and 3073 nodes, its code at most
3073 instructions, and the stack at most 129 values at a time. -/
theorem bounded_ofFormula {schema : Schema} {source : String} {p : Program}
    (h : ofFormula schema source = .ok p) :
    ∃ e, Expr.parse schema source = .ok e ∧ e.operations ≤ maxOperations ∧
      e.nodeCount ≤ 3 * maxOperations + 1 ∧ p.code.length ≤ 3 * maxOperations + 1 ∧
      p.maxStack ≤ 2 * maxDepth + 1 := by
  obtain ⟨e, hparse, rfl⟩ := ofFormula_eq_ok_iff.mp h
  obtain ⟨tokens, -, htokens⟩ := bind_eq_ok_iff.mp hparse
  obtain ⟨m, hm, hsum, hoperations⟩ := Expr.derived_of_ofTokens htokens
  have hnodes := Expr.nodeCount_le hsum.wellFormed.saturated
  have hlength := e.length_emit_le
  have hpeak : Instr.peak 0 e.emit ≤ 0 + (2 * m + 1) := hsum.fitsIn 0
  have hroom := Expr.room_eq_peak hsum.wellFormed.saturated
  refine ⟨e, hparse, hoperations, by omega, ?_, ?_⟩
  · show e.emit.length ≤ 3 * maxOperations + 1
    omega
  · show e.room ≤ 2 * maxDepth + 1
    omega

end

/-- The theorem at `x*(y-max(x,y))`, where all four variables are on the stack at once. -/
theorem bounded_ofFormula_max :
    let schema : Schema := .ofList ["x", "y"]
    let source := "x*(y-max(x,y))"
    ∃ p, ofFormula schema source = .ok p ∧ p.code.length = 7 ∧ p.maxStack = 4 ∧
      ∃ e, Expr.parse schema source = .ok e ∧ e.operations ≤ maxOperations ∧
        e.nodeCount ≤ 3 * maxOperations + 1 ∧ p.code.length ≤ 3 * maxOperations + 1 ∧
        p.maxStack ≤ 2 * maxDepth + 1 := by
  intro schema source
  let e : Expr := .binary .mul (.var "x" 0)
    (.binary .sub (.var "y" 1) (.call .max [.var "x" 0, .var "y" 1]))
  have hcompile : ofFormula schema source = .ok ⟨source, 2, e.emit, 4⟩ := by decide +kernel
  exact ⟨_, hcompile, rfl, rfl, bounded_ofFormula hcompile⟩

end Program

end PenFilter
