import PenFilter.History

/-! # The ring of positions

`SampleRing.Holds r vs` says that a ring is the front of a list of positions, the newest first,
with zeros behind its end.  A new ring holds nothing (`SampleRing.holds_ofCapacity`), and a push
puts one entry in front of what is held (`SampleRing.Holds.push`), whatever the capacity. -/

namespace PenFilter

namespace SampleRing

/-- A ring shows the newest of the given positions, as many as it has slots, and zeros after the
last of them. -/
structure Holds (r : SampleRing) (vs : List Vec2) : Prop where
  get?_eq : ∀ i < r.capacity, r.get? i = some (vs[i]?.getD .zero)
  size_eq : r.size = min r.capacity vs.length

@[simp] theorem capacity_ofCapacity (n : Nat) : (ofCapacity n).capacity = n := by
  simp [capacity, ofCapacity]

@[simp] theorem capacity_clear (r : SampleRing) : r.clear.capacity = r.capacity := by
  simp [clear]

@[simp] theorem capacity_push (r : SampleRing) (v : Vec2) :
    (r.push v).capacity = r.capacity := by
  unfold push
  split
  · rfl
  · simp [capacity]

theorem get?_of_le {r : SampleRing} {i : Nat} (h : r.capacity ≤ i) : r.get? i = none := by
  simp [get?, Nat.not_lt.mpr h]

theorem holds_ofCapacity (n : Nat) : (ofCapacity n).Holds [] := by
  refine ⟨fun i hi => ?_, by simp [ofCapacity]⟩
  rw [capacity_ofCapacity] at hi
  have hslot : i % n < n := Nat.mod_lt i (by omega)
  simp [get?, ofCapacity, capacity, hi, hslot]

/-! ### Going around the end of the buffer -/

theorem mod_back_add {n : Nat} (hn : 0 < n) (head i : Nat) :
    ((head + n - 1) % n + (i + 1)) % n = (head + i) % n := by
  calc ((head + n - 1) % n + (i + 1)) % n
      = (head + n - 1 + (i + 1)) % n := Nat.mod_add_mod _ _ _
    _ = (head + i + n) % n := by congr 1; omega
    _ = (head + i) % n := Nat.add_mod_right _ _

/-- Fewer steps than there are slots do not come back to where they began. -/
theorem mod_add_ne {n start i : Nat} (hstart : start < n) (hi : 0 < i) (hin : i < n) :
    (start + i) % n ≠ start := by
  by_cases hwrap : start + i < n
  · rw [Nat.mod_eq_of_lt hwrap]
    omega
  · rw [Nat.mod_eq_sub_mod (by omega), Nat.mod_eq_of_lt (by omega)]
    omega

/-! ### Pushing -/

theorem get?_push_zero {r : SampleRing} (hr : 0 < r.capacity) (v : Vec2) :
    (r.push v).get? 0 = some v := by
  have hhead : (r.head + r.capacity - 1) % r.capacity < r.capacity := Nat.mod_lt _ hr
  have hslots : (r.head + r.capacity - 1) % r.capacity < r.slots.size := hhead
  rw [get?, capacity_push, if_pos hr]
  simp [push, Nat.pos_iff_ne_zero.mp hr, Nat.mod_eq_of_lt hhead, hslots]

/-- A push makes every other entry one push older. -/
theorem get?_push_succ {r : SampleRing} {i : Nat} (hi : i + 1 < r.capacity) (v : Vec2) :
    (r.push v).get? (i + 1) = r.get? i := by
  have hr : 0 < r.capacity := by omega
  have hhead : (r.head + r.capacity - 1) % r.capacity < r.capacity := Nat.mod_lt _ hr
  have hother := mod_add_ne hhead (Nat.succ_pos i) hi
  rw [mod_back_add hr] at hother
  rw [get?, get?, capacity_push, if_pos hi, if_pos (by omega)]
  simp [push, Nat.pos_iff_ne_zero.mp hr, mod_back_add hr, hother.symm]

theorem Holds.push {r : SampleRing} {vs : List Vec2} (h : r.Holds vs) (v : Vec2) :
    (r.push v).Holds (v :: vs) := by
  refine ⟨fun i hi => ?_, ?_⟩
  · rw [capacity_push] at hi
    cases i with
    | zero => simp [get?_push_zero hi]
    | succ i => simp [get?_push_succ hi, h.get?_eq i (by omega)]
  · have hsize := h.size_eq
    rw [capacity_push, SampleRing.push]
    split
    · rename_i hempty
      rw [hsize, hempty]
      simp
    · simp only [List.length_cons]
      omega

/-- The entry of an age, zero beyond the slots, is that of the positions there is room for. -/
theorem Holds.getD_get? {r : SampleRing} {vs : List Vec2} (h : r.Holds vs) (i : Nat) :
    (r.get? i).getD .zero = (vs.take r.capacity)[i]?.getD .zero := by
  by_cases hi : i < r.capacity
  · rw [h.get?_eq i hi, List.getElem?_take_of_lt hi, Option.getD_some]
  · rw [get?_of_le (Nat.not_lt.mp hi), List.getElem?_take_eq_none (Nat.not_lt.mp hi)]

theorem holds_clear (r : SampleRing) : r.clear.Holds [] := holds_ofCapacity r.capacity

end SampleRing

end PenFilter
