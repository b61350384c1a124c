import Mathlib.Data.List.Induction
import Mathlib.Data.List.ReduceOption
import PenFilter.Proofs.History

/-! # Runs of a ring

A ring that is pushed to and cleared in turn shows the entries pushed since it was last cleared, the
newest first (`SampleRing.pushed`).  `SampleRing.Shows` is all that a ring can be asked: a run keeps
what the ring holds up with what has been pushed (`SampleRing.tracks_run`), and this decides every
answer.

The remainders of a ring are total, and so is its way of writing and reading a slot.  The checked
versions of the operations fail where a remainder by zero or a place behind the last slot would be
used; they never do (`SampleRing.checkedAfter_eq`, `SampleRing.checkedGet_eq`). -/

namespace PenFilter

namespace SampleRing

/-! ### Operations -/

/-- What can be done to a ring. -/
inductive Operation where
  | push (v : Vec2)
  | clear

/-- The entry that an operation pushes. -/
def Operation.entry? : Operation → Option Vec2
  | push v => some v
  | clear => none

/-- The ring after an operation. -/
def after (r : SampleRing) : Operation → SampleRing
  | .push v => r.push v
  | .clear => r.clear

/-- The ring after a sequence of operations. -/
def run (r : SampleRing) (ops : List Operation) : SampleRing := ops.foldl after r

/-- The entries pushed since the last time that the ring was cleared, the newest first. -/
def pushed (ops : List Operation) : List Vec2 :=
  ((ops.reverse.map Operation.entry?).takeWhile Option.isSome).reduceOption

theorem run_concat (r : SampleRing) (ops : List Operation) (op : Operation) :
    r.run (ops ++ [op]) = (r.run ops).after op := by
  simp [run]

theorem pushed_concat_push (ops : List Operation) (v : Vec2) :
    pushed (ops ++ [.push v]) = v :: pushed ops := by
  simp [pushed, Operation.entry?, List.reduceOption_cons_of_some]

theorem pushed_concat_clear (ops : List Operation) : pushed (ops ++ [.clear]) = [] := by
  simp [pushed, Operation.entry?]

/-! ### What a run keeps -/

/-- A ring of `n` slots holds some entries, and its head is one of the slots. -/
structure Tracks (r : SampleRing) (n : Nat) (vs : List Vec2) : Prop where
  capacity : r.capacity = n
  holds : r.Holds vs
  head_lt : 0 < n → r.head < n

variable {r : SampleRing} {n : Nat} {vs : List Vec2}

theorem tracks_ofCapacity (n : Nat) : (ofCapacity n).Tracks n [] :=
  ⟨capacity_ofCapacity n, holds_ofCapacity n, fun hn => hn⟩

theorem Tracks.push (h : r.Tracks n vs) (v : Vec2) : (r.push v).Tracks n (v :: vs) where
  capacity := (capacity_push r v).trans h.capacity
  holds := h.holds.push v
  head_lt := by
    intro hn
    have hr : r.capacity ≠ 0 := by rw [h.capacity]; omega
    rw [SampleRing.push, if_neg hr, ← h.capacity]
    exact Nat.mod_lt _ (Nat.pos_of_ne_zero hr)

theorem Tracks.clear (h : r.Tracks n vs) : r.clear.Tracks n [] := by
  have hclear : r.clear = ofCapacity n := by rw [SampleRing.clear, h.capacity]
  rw [hclear]
  exact tracks_ofCapacity n

/-- A run holds what it has pushed since it was last cleared. -/
theorem tracks_run (n : Nat) (ops : List Operation) :
    ((ofCapacity n).run ops).Tracks n (pushed ops) := by
  induction ops using List.reverseRecOn with
  | nil => exact tracks_ofCapacity n
  | append_singleton ops op ih =>
      rw [run_concat]
      cases op with
      | push v =>
          rw [pushed_concat_push]
          exact ih.push v
      | clear =>
          rw [pushed_concat_clear]
          exact ih.clear

/-! ### What a ring answers -/

/-- A ring of `n` slots answers every question as the front of a list would, the newest entry
first, with zeros behind the end of the list. -/
structure Shows (r : SampleRing) (n : Nat) (vs : List Vec2) : Prop where
  capacity : r.capacity = n
  size : r.size = min vs.length n
  isFull_iff : r.isFull ↔ n ≤ vs.length
  isEmpty_iff : r.isEmpty ↔ n = 0 ∨ vs = []
  get?_of_lt : ∀ i < n, r.get? i = some (vs[i]?.getD .zero)
  get?_of_le : ∀ i, n ≤ i → r.get? i = none
  toList : r.toList.map some = (List.range n).map r.get?
  head_lt : 0 < n → r.head < n

theorem Tracks.shows (h : r.Tracks n vs) : r.Shows n vs := by
  have hget : ∀ i < n, r.get? i = some (vs[i]?.getD .zero) := by
    intro i hi
    exact h.holds.get?_eq i (by rw [h.capacity]; exact hi)
  have hsize : r.size = min vs.length n := by
    rw [h.holds.size_eq, h.capacity, Nat.min_comm]
  refine ⟨h.capacity, hsize, ?_, ?_, hget, fun i hi => get?_of_le (by rw [h.capacity]; exact hi),
    ?_, h.head_lt⟩
  · rw [isFull, beq_iff_eq, hsize, h.capacity]
    omega
  · rw [isEmpty, beq_iff_eq, hsize, ← List.length_eq_zero_iff]
    omega
  · -- every age below the capacity has an entry, so that none is left out
    have hall : r.toList = (List.range n).map fun i => vs[i]?.getD .zero := by
      rw [SampleRing.toList, h.capacity, ← List.filterMap_eq_map']
      exact List.filterMap_congr fun i hi => hget i (List.mem_range.mp hi)
    rw [hall, List.map_map]
    exact List.map_congr_left fun i hi => (hget i (List.mem_range.mp hi)).symm

/-! ### Divisions and places -/

/-- A remainder, unless the division is by zero. -/
def rem? (a n : Nat) : Option Nat := if n = 0 then none else some (a % n)

/-- The slots with an entry written to a place, unless there is no such place. -/
def write? (slots : Array Vec2) (place : Nat) (v : Vec2) : Option (Array Vec2) :=
  if h : place < slots.size then some (slots.set place v h) else none

/-- A push that checks its division and its place. -/
def checkedPush (r : SampleRing) (v : Vec2) : Option SampleRing :=
  if r.capacity = 0 then some r else do
    let head ← rem? (r.head + r.capacity - 1) r.capacity
    let slots ← write? r.slots head v
    return ⟨slots, head, min (r.size + 1) r.capacity⟩

/-- An answer of `get?` that checks its division and its place. -/
def checkedGet (r : SampleRing) (i : Nat) : Option (Option Vec2) :=
  if i < r.capacity then do
    let place ← rem? (r.head + i) r.capacity
    let v ← r.slots[place]?
    return some v
  else some none

/-- An operation with all checks. -/
def checkedAfter (r : SampleRing) : Operation → Option SampleRing
  | .push v => r.checkedPush v
  | .clear => some r.clear

theorem rem?_of_pos {a n : Nat} (h : 0 < n) : rem? a n = some (a % n) :=
  if_neg (Nat.pos_iff_ne_zero.mp h)

theorem checkedPush_eq (r : SampleRing) (v : Vec2) : r.checkedPush v = some (r.push v) := by
  unfold checkedPush SampleRing.push
  split
  · rfl
  · rename_i hr
    have hpos : 0 < r.capacity := Nat.pos_of_ne_zero hr
    have hplace : (r.head + r.capacity - 1) % r.capacity < r.slots.size := Nat.mod_lt _ hpos
    simp [rem?_of_pos hpos, write?, hplace, Array.setIfInBounds]

theorem checkedGet_eq (r : SampleRing) (i : Nat) : r.checkedGet i = some (r.get? i) := by
  unfold checkedGet get?
  split
  · rename_i hi
    have hpos : 0 < r.capacity := by omega
    have hplace : (r.head + i) % r.capacity < r.slots.size := Nat.mod_lt _ hpos
    simp [rem?_of_pos hpos, hplace]
  · rfl

theorem checkedAfter_eq (r : SampleRing) (op : Operation) :
    r.checkedAfter op = some (r.after op) := by
  cases op with
  | push v => exact r.checkedPush_eq v
  | clear => rfl

theorem foldlM_checkedAfter (r : SampleRing) (ops : List Operation) :
    ops.foldlM checkedAfter r = some (r.run ops) := by
  induction ops generalizing r with
  | nil => rfl
  | cons op ops ih =>
      rw [List.foldlM_cons, checkedAfter_eq]
      exact ih (r.after op)

/-- **A ring is a bounded list, the newest entry first.**  For every number of slots, none and one
included, and every sequence of pushes and clears, the ring answers as the list of the entries
pushed since it was last cleared, cut off at the number of slots.  On the way and in its answers it
never divides by zero, and every place that it writes or reads is one of its slots. -/
theorem run_shows_pushed (n : Nat) (ops : List Operation) :
    ((ofCapacity n).run ops).Shows n (pushed ops) ∧
      ops.foldlM checkedAfter (ofCapacity n) = some ((ofCapacity n).run ops) ∧
      ∀ i, ((ofCapacity n).run ops).checkedGet i = some (((ofCapacity n).run ops).get? i) :=
  ⟨(tracks_run n ops).shows, foldlM_checkedAfter _ ops, checkedGet_eq _⟩

end SampleRing

end PenFilter
