import Mathlib.Order.Bounds.Basic
import Mathlib.Order.MinMax
import PenFilter.Proofs.Formula.Operands

/-! # The height of the stack

The code of a program tells how high the stack is at each moment of a run, without the run
(`Instr.length_of_run`): the values never matter for it.  Hence the peak that is found by going over
the code is the greatest height that any run of it reaches, and some moment of each run reaches it
(`Instr.isGreatest_peak`).  The counters of an emitter find this peak for expressions with saturated
calls.  A program made from one takes no more off the stack than is there, and needs exactly the
room that was counted (`Program.keepsToStack_ofSource`). -/

namespace PenFilter

namespace Instr

/-- By how much an instruction lowers the stack. -/
def lowering : Instr → Nat
  | const _ | load _ | neg => 0
  | binary _ => 1
  | call f => f.arity - 1

/-- The heights before the first instruction, between any two and after the last. -/
def heights (height : Nat) (code : List Instr) : Set Nat :=
  {n | ∃ before, before <+: code ∧ heightAfterAll height before = n}

/-- The peak is one of the heights, and no other is greater. -/
theorem isGreatest_peak (height : Nat) (code : List Instr) :
    IsGreatest (heights height code) (peak height code) := by
  induction code generalizing height with
  | nil =>
      refine ⟨⟨[], List.prefix_refl [], rfl⟩, ?_⟩
      rintro n ⟨before, hpart, rfl⟩
      rw [List.prefix_nil.mp hpart]
      exact le_refl height
  | cons i code ih =>
      obtain ⟨hmem, hbound⟩ := ih (i.heightAfter height)
      unfold peak
      constructor
      · rcases max_choice height (peak (i.heightAfter height) code) with hmax | hmax
        · rw [hmax]
          exact ⟨[], List.nil_prefix, rfl⟩
        · obtain ⟨before, hpart, hheight⟩ := hmem
          rw [hmax]
          exact ⟨i :: before, (List.prefix_cons_inj i).mpr hpart, hheight⟩
      · rintro n ⟨before, hpart, rfl⟩
        cases before with
        | nil => exact le_max_left _ _
        | cons j before =>
            obtain ⟨rfl, hrest⟩ := List.cons_prefix_cons.mp hpart
            exact le_max_of_le_right (hbound ⟨before, hrest, rfl⟩)

variable {args : Array Double} {s t : Stack}

theorem lowering_le_of_supplied {i : Instr} (h : i.Supplied args s) : i.lowering ≤ s.length := by
  cases i with
  | const value | load slot | neg => exact Nat.zero_le _
  | binary op =>
      unfold Supplied at h
      show 1 ≤ s.length
      omega
  | call f =>
      unfold Supplied at h
      show f.arity - 1 ≤ s.length
      omega

section

variable [Arithmetic]

theorem length_of_step {i : Instr} (h : i.step args s = some t) :
    t.length = i.heightAfter s.length := by
  cases i with
  | const value | load slot =>
      cases h
      rfl
  | neg => cases s <;> cases h <;> rfl
  | binary op =>
      match s with
      | [] | [a] => cases h
      | b :: a :: s =>
          cases h
          show s.length + 1 = s.length + 2 - 1
          omega
  | call f =>
      rw [step] at h
      split at h
      · rename_i hoperands
        cases h
        have hpos := f.arity_pos
        show (s.drop f.arity).length + 1 = s.length - (f.arity - 1)
        rw [List.length_drop]
        omega
      · cases h

/-- The height of the stack follows from the code alone. -/
theorem length_of_run {code : List Instr} (h : run args code s = some t) :
    t.length = heightAfterAll s.length code := by
  induction code generalizing s with
  | nil =>
      cases h
      rfl
  | cons i code ih =>
      obtain ⟨u, hstep, hrest⟩ := Option.bind_eq_some_iff.mp h
      rw [heightAfterAll_cons, ← length_of_step hstep]
      exact ih hrest

theorem AllSupplied.run_of_prefix {code before : List Instr} (h : AllSupplied args s code)
    (hend : ∃ t, run args code s = some t) (hpart : before <+: code) :
    ∃ t, run args before s = some t := by
  obtain ⟨after, rfl⟩ := hpart
  cases after with
  | nil =>
      rw [List.append_nil] at hend
      exact hend
  | cons i after =>
      obtain ⟨t, ht, -⟩ := h before i after rfl
      exact ⟨t, ht⟩

end

end Instr

namespace Program

section

variable [Arithmetic]

/-- The heights of the stack at the moments of a run. -/
def heightsOfRun (p : Program) (args : Array Double) : Set Nat :=
  {n | ∃ before t, before <+: p.code ∧ Instr.run args before [] = some t ∧ t.length = n}

/-- A program runs to its end with every instruction supplied and with one value left.  The height
that goes along with its code is that of the stack, and never goes below zero.  The room that the
program asks for is the greatest height of the run. -/
structure KeepsToStack (p : Program) (args : Array Double) : Prop where
  completes : p.Completes args
  height : ∀ before after, p.code = before ++ after →
    ∃ t, Instr.run args before [] = some t ∧ t.length = Instr.heightAfterAll 0 before
  lowering_le : ∀ before i after, p.code = before ++ i :: after →
    i.lowering ≤ Instr.heightAfterAll 0 before
  greatest : IsGreatest (p.heightsOfRun args) p.maxStack

theorem Completes.keepsToStack {p : Program} {args : Array Double} (h : p.Completes args)
    (hroom : p.maxStack = Instr.peak 0 p.code) : p.KeepsToStack args := by
  obtain ⟨value, hvalue⟩ := h.result
  have hreached : ∀ before, before <+: p.code →
      ∃ t, Instr.run args before [] = some t ∧ t.length = Instr.heightAfterAll 0 before := by
    intro before hpart
    obtain ⟨t, ht⟩ := h.supplied.run_of_prefix ⟨_, hvalue⟩ hpart
    exact ⟨t, ht, Instr.length_of_run ht⟩
  have hheights : p.heightsOfRun args = Instr.heights 0 p.code := by
    ext n
    constructor
    · rintro ⟨before, t, hpart, ht, rfl⟩
      exact ⟨before, hpart, (Instr.length_of_run ht).symm⟩
    · rintro ⟨before, hpart, rfl⟩
      obtain ⟨t, ht, hlength⟩ := hreached before hpart
      exact ⟨before, t, hpart, ht, hlength⟩
  refine ⟨h, ?_, ?_, ?_⟩
  · intro before after hsplit
    exact hreached before (hsplit ▸ List.prefix_append before after)
  · intro before i after hsplit
    obtain ⟨t, ht, hsupplied⟩ := h.supplied before i after hsplit
    have hheight : t.length = Instr.heightAfterAll 0 before := Instr.length_of_run ht
    rw [← hheight]
    exact Instr.lowering_le_of_supplied hsupplied
  · rw [hheights, hroom]
    exact Instr.isGreatest_peak 0 p.code

/-- **A program keeps to its stack.**  Whatever expression with saturated calls it was made from,
the emitter never took away more than it had counted, and counted one value in the end.  Whatever
the arithmetic and the values of the variables are, each instruction finds its operands, exactly
one value is left, and the greatest height of the stack is the greatest depth that the emitter
counted. -/
theorem keepsToStack_ofSource {schema : Schema} {source : String} {e : Expr} {p : Program}
    (hsat : e.saturated) (h : ofSource schema source e = .ok p) :
    (∃ m, Emitter.emit? {} e = some m ∧ m.code = p.code ∧ m.depth = 1 ∧
      m.maxDepth = p.maxStack) ∧
    ∀ args : Array Double, args.size = schema.size → p.KeepsToStack args := by
  obtain ⟨hres, rfl⟩ := ofSource_eq_ok_iff.mp h
  obtain ⟨hemit, hdepth⟩ := Emitter.emit?_eq {} hsat
  refine ⟨⟨_, hemit, Emitter.code_emit {} e, hdepth, rfl⟩, fun args hargs => ?_⟩
  refine Completes.keepsToStack ?_ (Expr.room_eq_peak hsat)
  exact ⟨hargs, Expr.allSupplied_emit hsat hres hargs [], _, Expr.run_emit hsat hres []⟩

end

/-- The theorem at `max(x, y * (x - clamp(y, 0, x)))`, which needs room for six values. -/
theorem keepsToStack_max_clamp :
    let schema : Schema := .ofList ["x", "y"]
    let inner : Expr := .call .clamp [.var "y" 1, .number .zero, .var "x" 0]
    let e : Expr := .call .max
      [.var "x" 0, .binary .mul (.var "y" 1) (.binary .sub (.var "x" 0) inner)]
    let args : Array Double := #[.one, .two]
    e.saturated ∧ args.size = schema.size ∧
      ∃ p, ofSource schema "max" e = .ok p ∧ p.maxStack = 6 ∧ p.KeepsToStack args ∧
        ∃ m, Emitter.emit? {} e = some m ∧ m.code = p.code ∧ m.maxDepth = 6 := by
  intro schema inner e args
  have hcompile : ofSource schema "max" e = .ok ⟨"max", schema.size, e.emit, 6⟩ :=
    ofSource_eq_ok_iff.mpr ⟨by decide, rfl⟩
  obtain ⟨⟨m, hemit, hcode, -, hroom⟩, hkeeps⟩ := keepsToStack_ofSource rfl hcompile
  exact ⟨rfl, rfl, _, hcompile, rfl, hkeeps args rfl, m, hemit, hcode, hroom⟩

end Program

end PenFilter
