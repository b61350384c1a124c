import PenFilter.Formula.Program.Compile
import PenFilter.Proofs.Formula.Grammar

/-! # What an emitter writes

`Expr.emit` is the code of a tree, as a list put together from the codes of its parts; an emitter
writes it behind what it has written already (`Emitter.code_emit`), whatever its counters say.

The counters go along with the height of the stack.  `Instr.peak` is the greatest height from a
given one on, found by going over a code.  As long as each instruction is counted as what it does to
the stack, the depth is the height after the code and the greatest depth is its peak
(`Emitter.Tracks`): a push and a pop keep this, and so does a tree with saturated calls.  For such a
tree no pop takes more values than are counted, so that its subtraction is exact
(`Emitter.emit?_eq`). -/

namespace PenFilter

/-! ### The code of a tree -/

namespace Expr

mutual

/-- The instructions that put the value of a tree on the stack. -/
def emit [Arithmetic] (e : Expr) : List Instr :=
  match fold? e with
  | some value => [.const value]
  | none =>
    match e with
    | number value => [.const (.ofReal value)]
    | var _ slot => [.load slot]
    | neg a => emit a ++ [.neg]
    | binary op a b => emit a ++ emit b ++ [.binary op]
    | call f args => emitAll args ++ [.call f]

/-- The instructions of a list of trees in turn. -/
def emitAll [Arithmetic] : List Expr → List Instr
  | [] => []
  | a :: as => emit a ++ emitAll as

end

/-- The room on the stack that is counted while the code of a tree is written. -/
def room [Arithmetic] (e : Expr) : Nat := (Emitter.emit {} e).maxDepth

theorem emit_of_fold? [Arithmetic] {e : Expr} {v : Complex} (h : e.fold? = some v) :
    e.emit = [.const v] := by
  cases e <;> simp [emit, h]

end Expr

namespace Emitter

variable [Arithmetic]

theorem emit_of_fold? {e : Expr} {v : Complex} (h : e.fold? = some v) (m : Emitter) :
    m.emit e = m.push (.const v) := by
  cases e <;> simp [emit, h]

mutual

/-- The code of a tree comes behind what is there. -/
theorem code_emit (m : Emitter) (e : Expr) : (m.emit e).code = m.code ++ e.emit := by
  cases hfold : e.fold? with
  | some v =>
      rw [emit_of_fold? hfold, Expr.emit_of_fold? hfold]
      rfl
  | none =>
      match e with
      | .number value => cases hfold
      | .var name slot => rfl
      | .neg a =>
          rw [emit, Expr.emit, hfold, ← List.append_assoc, ← code_emit m a]
          rfl
      | .binary op a b =>
          rw [emit, Expr.emit, hfold, ← List.append_assoc, ← List.append_assoc, ← code_emit m a,
            ← code_emit _ b]
          rfl
      | .call f args =>
          rw [emit, Expr.emit, hfold, ← List.append_assoc, ← code_emitAll m args]
          rfl

theorem code_emitAll (m : Emitter) (es : List Expr) :
    (m.emitAll es).code = m.code ++ Expr.emitAll es := by
  match es with
  | [] => exact (List.append_nil _).symm
  | a :: as =>
      rw [emitAll, Expr.emitAll, ← List.append_assoc, ← code_emit m a]
      exact code_emitAll _ as

end

end Emitter

/-! ### Heights along a code -/

namespace Instr

/-- The height of the stack after an instruction. -/
def heightAfter (height : Nat) : Instr → Nat
  | const _ | load _ => height + 1
  | neg => height
  | binary _ => height - 1
  | call f => height - (f.arity - 1)

/-- The height after a list of instructions, from one of height `height` on. -/
def heightAfterAll (height : Nat) (code : List Instr) : Nat := code.foldl heightAfter height

/-- The greatest height of the stack from one of height `height` on. -/
def peak (height : Nat) : List Instr → Nat
  | [] => height
  | i :: is => max height (peak (i.heightAfter height) is)

theorem heightAfterAll_cons (height : Nat) (i : Instr) (code : List Instr) :
    heightAfterAll height (i :: code) = heightAfterAll (i.heightAfter height) code := rfl

theorem heightAfterAll_append (height : Nat) (code more : List Instr) :
    heightAfterAll height (code ++ more) =
      heightAfterAll (heightAfterAll height code) more :=
  List.foldl_append

theorem le_peak (height : Nat) (code : List Instr) : height ≤ peak height code := by
  cases code with
  | nil => exact Nat.le_refl height
  | cons i code => exact Nat.le_max_left _ _

theorem peak_append (height : Nat) (code more : List Instr) :
    peak height (code ++ more) =
      max (peak height code) (peak (heightAfterAll height code) more) := by
  induction code generalizing height with
  | nil => exact (Nat.max_eq_right (le_peak height more)).symm
  | cons i code ih =>
      rw [List.cons_append, peak, ih, peak, heightAfterAll_cons, Nat.max_assoc]

theorem heightAfterAll_le_peak (height : Nat) (code : List Instr) :
    heightAfterAll height code ≤ peak height code := by
  induction code generalizing height with
  | nil => exact Nat.le_refl height
  | cons i code ih => exact Nat.le_trans (ih _) (Nat.le_max_right _ _)

end Instr

/-! ### The counters of an emitter -/

namespace Emitter

/-- The counters are the height of the stack after the code and the greatest height on the way. -/
structure Tracks (m : Emitter) : Prop where
  depth_eq : m.depth = Instr.heightAfterAll 0 m.code
  maxDepth_eq : m.maxDepth = Instr.peak 0 m.code

theorem tracks_empty : Tracks {} := ⟨rfl, rfl⟩

theorem Tracks.push {m : Emitter} (h : m.Tracks) {i : Instr}
    (hi : i.heightAfter m.depth = m.depth + 1) : (m.push i).Tracks where
  depth_eq := by
    rw [Emitter.push, Instr.heightAfterAll_append, ← h.depth_eq]
    exact hi.symm
  maxDepth_eq := by
    rw [Emitter.push, Instr.peak_append, ← h.depth_eq, ← h.maxDepth_eq, Instr.peak, Instr.peak, hi,
      Nat.max_eq_right (Nat.le_succ m.depth)]

theorem Tracks.pop {m : Emitter} (h : m.Tracks) {count : Nat} {i : Instr}
    (hi : i.heightAfter m.depth = m.depth - count) : (m.pop count i).Tracks where
  depth_eq := by
    rw [Emitter.pop, Instr.heightAfterAll_append, ← h.depth_eq]
    exact hi.symm
  maxDepth_eq := by
    have hused : m.depth ≤ m.maxDepth := by
      rw [h.depth_eq, h.maxDepth_eq]
      exact Instr.heightAfterAll_le_peak 0 m.code
    rw [Emitter.pop, Instr.peak_append, ← h.depth_eq, ← h.maxDepth_eq, Instr.peak, Instr.peak, hi]
    show m.maxDepth = max m.maxDepth (max m.depth (m.depth - count))
    omega

variable [Arithmetic]

mutual

theorem Tracks.emit {m : Emitter} (h : m.Tracks) {e : Expr} (hsat : e.saturated) :
    (m.emit e).Tracks := by
  cases hfold : e.fold? with
  | some v =>
      rw [emit_of_fold? hfold]
      exact h.push rfl
  | none =>
      match e with
      | .number value => cases hfold
      | .var name slot => exact h.push rfl
      | .neg a =>
          rw [Emitter.emit, hfold]
          exact (h.emit (e := a) hsat).pop rfl
      | .binary op a b =>
          obtain ⟨hsata, hsatb⟩ := Bool.and_eq_true_iff.mp hsat
          rw [Emitter.emit, hfold]
          exact ((h.emit hsata).emit hsatb).pop rfl
      | .call f args =>
          -- the emitter counts the arguments of the tree, the stack those of the function
          obtain ⟨hlength, hsats⟩ := Bool.and_eq_true_iff.mp hsat
          rw [Emitter.emit, hfold, beq_iff_eq.mp hlength]
          exact (h.emitAll hsats).pop rfl

theorem Tracks.emitAll {m : Emitter} (h : m.Tracks) {es : List Expr}
    (hsat : Expr.saturatedAll es) : (m.emitAll es).Tracks := by
  match es with
  | [] => exact h
  | a :: as =>
      obtain ⟨hsata, hsats⟩ := Bool.and_eq_true_iff.mp hsat
      exact (h.emit hsata).emitAll hsats

end

end Emitter

theorem Expr.room_eq_peak [Arithmetic] {e : Expr} (hsat : e.saturated) :
    e.room = Instr.peak 0 e.emit := by
  rw [room, (Emitter.tracks_empty.emit hsat).maxDepth_eq, Emitter.code_emit]
  rfl

/-! ### Exact subtraction -/

namespace Emitter

/-- Like `pop`, but without a result where fewer values are counted than are taken away. -/
def pop? (m : Emitter) (count : Nat) (i : Instr) : Option Emitter :=
  if count ≤ m.depth then some (m.pop count i) else none

section

variable [Arithmetic]

mutual

/-- Like `emit`, but without a result where a subtraction goes below zero. -/
def emit? (m : Emitter) (e : Expr) : Option Emitter :=
  match e.fold? with
  | some value => some (m.push (.const value))
  | none =>
    match e with
    | .number value => some (m.push (.const (.ofReal value)))
    | .var _ slot => some (m.push (.load slot))
    | .neg a => (m.emit? a).bind fun m => m.pop? 0 .neg
    | .binary op a b => (m.emit? a).bind fun m => (m.emit? b).bind fun m => m.pop? 1 (.binary op)
    | .call f args =>
      (m.emitAll? args).bind fun m =>
        if 1 ≤ args.length then m.pop? (args.length - 1) (.call f) else none

def emitAll? (m : Emitter) : List Expr → Option Emitter
  | [] => some m
  | a :: as => (m.emit? a).bind fun m => m.emitAll? as

end

mutual

/-- The code of a tree with saturated calls is written without a subtraction below zero, and one
more value is counted in the end. -/
theorem emit?_eq (m : Emitter) {e : Expr} (hsat : e.saturated) :
    m.emit? e = some (m.emit e) ∧ (m.emit e).depth = m.depth + 1 := by
  cases hfold : e.fold? with
  | some v => cases e <;> simp [emit?, emit, hfold, push]
  | none =>
      match e with
      | .number value => cases hfold
      | .var name slot => exact ⟨rfl, rfl⟩
      | .neg a =>
          obtain ⟨ha, hdepth⟩ := emit?_eq m (e := a) hsat
          rw [emit?, emit, hfold, ha]
          exact ⟨rfl, hdepth⟩
      | .binary op a b =>
          obtain ⟨hsata, hsatb⟩ := Bool.and_eq_true_iff.mp hsat
          obtain ⟨ha, hdepth⟩ := emit?_eq m hsata
          obtain ⟨hb, hdepth'⟩ := emit?_eq (m.emit a) hsatb
          have hthere : 1 ≤ ((m.emit a).emit b).depth := by omega
          simp only [emit?, emit, hfold, ha, hb, Option.bind_some, pop?, if_pos hthere, pop]
          exact ⟨trivial, by omega⟩
      | .call f args =>
          obtain ⟨hlength, hsats⟩ := Bool.and_eq_true_iff.mp hsat
          obtain ⟨hargs, hdepth⟩ := emitAll?_eq m hsats
          have hpos : 1 ≤ args.length := by
            rw [beq_iff_eq.mp hlength]
            exact f.arity_pos
          have hthere : args.length - 1 ≤ (m.emitAll args).depth := by omega
          simp only [emit?, emit, hfold, hargs, Option.bind_some, pop?, if_pos hpos, if_pos hthere,
            pop]
          exact ⟨trivial, by omega⟩

theorem emitAll?_eq (m : Emitter) {es : List Expr} (hsat : Expr.saturatedAll es) :
    m.emitAll? es = some (m.emitAll es) ∧ (m.emitAll es).depth = m.depth + es.length := by
  match es with
  | [] => exact ⟨rfl, rfl⟩
  | a :: as =>
      obtain ⟨hsata, hsats⟩ := Bool.and_eq_true_iff.mp hsat
      obtain ⟨ha, hdepth⟩ := emit?_eq m hsata
      obtain ⟨has, hdepth'⟩ := emitAll?_eq (m.emit a) hsats
      simp only [emitAll?, emitAll, ha, Option.bind_some, List.length_cons]
      exact ⟨has, by omega⟩

end

end

end Emitter

end PenFilter
