import PenFilter.Proofs.Channel
import PenFilter.Proofs.Number.Rounding

/-! # Numbers in another format

Every number in single precision has its value in double precision too, so that it comes back
from there as it was (`Single.toSingle_toDouble`); its sign comes back with it, also that of a
zero.  Whole numbers of 32 bits have their values in double precision as well, and rounding these
gives them back (`Double.nearestUInt32_ofNat`). -/

namespace PenFilter

open Float.Model UnpackedFloat

/-! ### Conversion -/

namespace Binary

variable {fmt target : Format}

theorem round_eq_pack_nearest (negative : Bool) {m : Nat} (hm : 0 < m) (e : Int) :
    Binary.round fmt negative m e = pack fmt (nearest fmt (signOf negative) (m * 2 ^ e)) := by
  rw [Binary.round, if_neg hm.ne', round_eq_nearest _ hm]
  simp only [nearest]
  split
  · exact withSign_pack_zero negative
  · split
    · exact withSign_pack_finite negative _ _
    · exact withSign_pack_finite negative _ _

theorem convert_of_infinity (hfmt : 2 ≤ fmt.exponentBits) {x : Binary fmt} {s : Sign}
    (h : x.unpack = .infinity s) : x.convert target = pack target (.infinity s) := by
  rw [convert, h, ← signOf_isNegative_of_unpack hfmt (.inl h)]
  exact withSign_pack_infinity _

theorem convert_of_zero (hfmt : 2 ≤ fmt.exponentBits) {x : Binary fmt} {s : Sign}
    (h : x.unpack = .zero s) : x.convert target = pack target (.zero s) := by
  rw [convert, h, ← signOf_isNegative_of_unpack hfmt (.inr (.inl h))]
  exact withSign_pack_zero _

theorem convert_of_finite (hfmt : 2 ≤ fmt.exponentBits) {x : Binary fmt} {s : Sign} {m : Nat}
    {e : Int} {hm : 0 < m} (h : x.unpack = .finite s m e hm) :
    x.convert target = pack target (nearest target s (m * 2 ^ e)) := by
  rw [convert, h, ← signOf_isNegative_of_unpack hfmt (.inr (.inr ⟨m, e, hm, h⟩))]
  exact round_eq_pack_nearest _ hm e

theorem isNaN_convert {x : Binary fmt} (h : x.isNaN) : (x.convert target).isNaN := by
  have hx : x.unpack = .notANumber := isNaN_iff.mp h
  rw [convert, hx]
  exact isNaN_nan _

end Binary

/-! ### Wider mantissas -/

theorem value_shiftLeft (m k : Nat) (e : Int) :
    ((m <<< k : Nat) : ℚ) * 2 ^ (e - (k : Int)) = m * 2 ^ e := by
  rw [Nat.shiftLeft_eq, zpow_sub₀ (by norm_num), zpow_natCast]
  push_cast
  field_simp

/-- A short mantissa can be made as long as double precision wants it. -/
theorem representable_shiftLeft {m : Nat} {e : Int} (hm : 0 < m) (hlog : m.log2 ≤ 52)
    (hlow : -1022 ≤ m.log2 + e) (hhigh : m.log2 + e ≤ 1023) :
    Representable .binary64 (m <<< (52 - m.log2)) (e - (52 - m.log2 : Nat)) := by
  have hpos : 0 < m <<< (52 - m.log2) := by
    rw [Nat.shiftLeft_eq]
    positivity
  refine ⟨hpos, ?_, ?_⟩
  · rw [totalExponent_eq_log hpos, value_shiftLeft, ← totalExponent_eq_log hm, totalExponent]
    simp only [Format.targetExponent, Format.minExponent, Format.mantissaBits]
    norm_num
    omega
  · change (e - (52 - m.log2 : Nat) + 1023 + 52).toNat + 1 < 2048
    omega

theorem Representable.double {m : Nat} {e : Int} (h : Representable .binary32 m e) :
    Representable .binary64 (m <<< (52 - m.log2)) (e - (52 - m.log2 : Nat)) := by
  have hcanonical := h.canonical
  have hbounded : (e + 127 + 23).toNat + 1 < 256 := h.bounded
  simp only [Format.targetExponent, Format.minExponent, Format.mantissaBits,
    totalExponent] at hcanonical
  norm_num at hcanonical
  exact representable_shiftLeft h.pos (by omega) (by omega) (by omega)

namespace Single

/-- A number comes back from double precision as it was. -/
theorem toSingle_toDouble {x : Single} (h : x.isNaN = false) : x.toDouble.toSingle = x := by
  have hpack := Binary.pack_unpack_of_isNaN_eq_false (by decide) h
  rcases Binary.unpack_cases (by decide) x with hx | hx | hx | ⟨m, e, hrep, hx⟩
  · rw [Binary.isNaN, hx] at h
    cases h
  · have hwide : x.toDouble.unpack = .infinity (signOf x.isNegative) := by
      rw [toDouble, Binary.convert_of_infinity (by decide) hx, Binary.unpack_pack_infinity]
    rw [Double.toSingle, Binary.convert_of_infinity (by decide) hwide, ← hx, hpack]
  · have hwide : x.toDouble.unpack = .zero (signOf x.isNegative) := by
      rw [toDouble, Binary.convert_of_zero (by decide) hx, Binary.unpack_pack_zero]
    rw [Double.toSingle, Binary.convert_of_zero (by decide) hwide, ← hx, hpack]
  · have hwide : x.toDouble.unpack = .finite (signOf x.isNegative)
        (m <<< (52 - m.log2)) (e - (52 - m.log2 : Nat)) hrep.double.pos := by
      rw [toDouble, Binary.convert_of_finite (by decide) hx, ← value_shiftLeft m (52 - m.log2) e,
        nearest_of_representable hrep.double]
      exact Binary.unpack_pack_finite hrep.double _
    rw [Double.toSingle, Binary.convert_of_finite (by decide) hwide, value_shiftLeft,
      nearest_of_representable hrep, ← hx, hpack]

theorem isNaN_toSingle_toDouble {x : Single} (h : x.isNaN) : x.toDouble.toSingle.isNaN :=
  Binary.isNaN_convert (Binary.isNaN_convert h)

end Single

/-! ### Whole numbers -/

namespace Double

theorem unpack_ofNat {n : Nat} (hn : 0 < n) (h : n < 2 ^ 53) :
    ∃ hpos, (ofNat n).unpack =
      .finite .positive (n <<< (52 - n.log2)) (0 - (52 - n.log2 : Nat)) hpos := by
  have hlog : n.log2 < 53 := (Nat.log2_lt hn.ne').mpr h
  have hrep := representable_shiftLeft (e := 0) hn (by omega) (by omega) (by omega)
  have hround : ofNat n = Binary.pack .binary64 (nearest .binary64 .positive (n * 2 ^ (0 : Int))) :=
    Binary.round_eq_pack_nearest false hn 0
  refine ⟨hrep.pos, ?_⟩
  rw [hround, ← value_shiftLeft n (52 - n.log2) 0, nearest_of_representable hrep]
  exact Binary.unpack_pack_finite hrep _

theorem toRat_ofNat {n : Nat} (h : n < 2 ^ 53) : (ofNat n).isFinite ∧ (ofNat n).toRat = n := by
  rcases Nat.eq_zero_or_pos n with rfl | hn
  · have hunpack : (ofNat 0).unpack = .zero .positive := Binary.unpack_pack_zero .positive
    simp only [Binary.isFinite, Binary.toRat, hunpack, UnpackedFloat.isFinite, Nat.cast_zero,
      and_self]
  · obtain ⟨hpos, hunpack⟩ := unpack_ofNat hn h
    have hvalue := value_shiftLeft n (52 - n.log2) 0
    rw [zpow_zero, mul_one] at hvalue
    simp only [Binary.isFinite, Binary.toRat, hunpack, hvalue, UnpackedFloat.isFinite, and_self]

theorem nearestUInt32_ofNat (n : UInt32) : (ofNat n.toNat).nearestUInt32 = n := by
  have hlt := n.toNat_lt
  obtain ⟨hfinite, hvalue⟩ := toRat_ofNat (n := n.toNat) (by omega)
  have hfloor : ⌊(n.toNat : ℚ) + 1 / 2⌋₊ = n.toNat :=
    (Nat.floor_eq_iff (by positivity)).mpr ⟨by linarith, by linarith⟩
  have hle : n.toNat ≤ UInt32.size - 1 := Nat.le_sub_one_of_lt hlt
  rw [← UInt32.toNat_inj, Binary.toNat_nearestUInt32 hfinite, hvalue, hfloor, min_eq_left hle]

end Double

end PenFilter
