import Mathlib.Algebra.Order.Floor.Semifield
import Mathlib.Data.Rat.Floor
import Mathlib.Tactic.FieldSimp
import Mathlib.Tactic.Linarith
import Mathlib.Tactic.Positivity
import Mathlib.Tactic.Ring
import PenFilter.Channel

/-! # What a channel reads and writes

`Channel.read?` is the number that a report holds in a channel, if it carries the measurement.
Writing to a channel replaces its own reading and no other (`Channel.read?_write`); a coordinate
becomes the value in single precision, and a count the nearest whole number of 32 bits, which is
the floor of the value and a half, cut off at the ends (`Binary.toNat_nearestUInt32`). -/

namespace PenFilter

open Float.Model

/-! ### The nearest whole number -/

namespace Binary

variable {fmt : Format}

/-- The value of a finite number; anything else counts as zero. -/
def toRat (x : Binary fmt) : ℚ :=
  match x.unpack with
  | .finite .positive m e _ => m * 2 ^ e
  | .finite .negative m e _ => -(m * 2 ^ e)
  | .zero _ | .infinity _ | .notANumber => 0

theorem nearestNat_eq_floor (m : Nat) (e : Int) :
    nearestNat m e = ⌊(m : ℚ) * 2 ^ e + 1 / 2⌋₊ := by
  cases e with
  | ofNat k =>
      have hvalue : (m : ℚ) * 2 ^ Int.ofNat k = ((m * 2 ^ k : Nat) : ℚ) := by
        push_cast [Int.ofNat_eq_natCast, zpow_natCast]
        rfl
      rw [hvalue, nearestNat, Nat.shiftLeft_eq, eq_comm, Nat.floor_eq_iff (by positivity)]
      constructor <;> linarith
  | negSucc k =>
      have hvalue : (m : ℚ) * 2 ^ Int.negSucc k + 1 / 2 =
          ((m + 2 ^ k : Nat) : ℚ) / ((2 ^ (k + 1) : Nat) : ℚ) := by
        rw [zpow_negSucc]
        push_cast
        field_simp
        ring
      rw [hvalue, Nat.floor_div_eq_div, nearestNat, Nat.shiftRight_eq_div_pow]
      rfl

/-- The nearest whole number of 32 bits: a half goes up, and what lies outside goes to the nearer
end. -/
theorem toNat_nearestUInt32 {x : Binary fmt} (h : x.isFinite) :
    x.nearestUInt32.toNat = min ⌊x.toRat + 1 / 2⌋₊ (UInt32.size - 1) := by
  have hclamp : ∀ n, (UInt32.ofNatClamp n).toNat = min n (UInt32.size - 1) := by
    intro n
    rw [UInt32.ofNatClamp]
    split
    · rw [UInt32.toNat_ofNatLT]
      omega
    · rw [UInt32.toNat_ofNatLT]
      omega
  unfold isFinite at h
  unfold nearestUInt32 toRat
  cases hx : x.unpack with
  | infinity sign | notANumber =>
      rw [hx] at h
      cases h
  | zero sign => norm_num
  | finite sign m e hm =>
      cases sign with
      | positive => rw [hclamp, nearestNat_eq_floor]
      | negative =>
          have hmantissa : (0 : ℚ) < m := Nat.cast_pos.mpr hm
          have hvalue : 0 < (m : ℚ) * 2 ^ e := mul_pos hmantissa (zpow_pos two_pos e)
          have hfloor : ⌊-((m : ℚ) * 2 ^ e) + 1 / 2⌋₊ = 0 := by
            rw [Nat.floor_eq_zero]
            linarith
          simp only [hfloor]
          rfl

end Binary

/-! ### Readings -/

/-- A number that a report holds. -/
inductive Reading where
  | coordinate (value : Single)
  | count (value : UInt32)
deriving DecidableEq

/-- A reading after a value is written over it.  A coordinate becomes the value in single
precision.  A count becomes the nearest whole number of 32 bits, and stays when the value is not
finite. -/
def Reading.overwrite (value : Double) : Reading → Reading
  | coordinate _ => .coordinate value.toSingle
  | count n =>
    .count (if value.isFinite then .ofNat (min ⌊value.toRat + 1 / 2⌋₊ (UInt32.size - 1)) else n)

theorem Reading.overwrite_coordinate (value : Double) (z : Single) :
    (coordinate z).overwrite value = .coordinate value.toSingle := rfl

theorem Reading.overwrite_count (value : Double) (n : UInt32) :
    (count n).overwrite value =
      .count (if value.isFinite then value.nearestUInt32 else n) := by
  rw [overwrite]
  split
  · rename_i hfinite
    rw [← Binary.toNat_nearestUInt32 hfinite, UInt32.ofNat_toNat]
  · rfl

namespace Channel

/-- The number that a report holds in a channel. -/
def read? (c : Channel) (r : Report) : Option Reading :=
  match c with
  | x => r.position.map (.coordinate ·.x)
  | y => r.position.map (.coordinate ·.y)
  | pressure => r.pressure.map .count
  | tiltX => r.tilt.map (.coordinate ·.x)
  | tiltY => r.tilt.map (.coordinate ·.y)

theorem isSome_read? (c : Channel) (r : Report) : (c.read? r).isSome = r.has c.capability := by
  cases c <;> exact Option.isSome_map

theorem read?_write_self (c : Channel) (r : Report) (value : Double) :
    c.read? (c.write r value) = (c.read? r).map (·.overwrite value) := by
  cases c <;>
    simp [read?, write, Function.comp_def, Reading.overwrite_coordinate, Reading.overwrite_count]

theorem read?_write_of_ne {c d : Channel} (h : c ≠ d) (r : Report) (value : Double) :
    d.read? (c.write r value) = d.read? r := by
  cases c <;> cases d <;> first | exact absurd rfl h | simp [read?, write, Function.comp_def]

theorem hoverDistance_write (c : Channel) (r : Report) (value : Double) :
    (c.write r value).hoverDistance = r.hoverDistance := by
  cases c <;> rfl

end Channel

end PenFilter
