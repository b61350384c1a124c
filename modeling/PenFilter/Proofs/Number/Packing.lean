import Mathlib
import PenFilter.Number.Binary

/-! # Bit patterns and their parts

A finite number has its mantissa and exponent in one form only (`Representable`): the exponent is
the one that the format wants for the position of the leading digit, and it is small enough to be
stored.  Bit patterns hold exactly these: what is unpacked is representable
(`Binary.representable_of_unpack`), and what is representable comes back from its bit pattern
(`Binary.unpack_pack_finite`).  A sign can be set before packing or after it
(`Binary.withSign_pack_finite`), and a bit pattern without one is `Binary.Unsigned`.  What is known
of packing in general is in no smaller part of Mathlib than the whole. -/

namespace PenFilter

open Float.Model UnpackedFloat

/-- The mantissa and the exponent of a number as a format stores them. -/
structure Representable (fmt : Format) (m : Nat) (e : Int) : Prop where
  pos : 0 < m
  canonical : fmt.targetExponent (totalExponent m e) = e
  bounded : (e + fmt.exponentBias + fmt.mantissaBitsWithoutImplicit).toNat + 1 <
    2 ^ fmt.exponentBits

/-- The sign whose sign bit is given. -/
def signOf (negative : Bool) : Sign := if negative then .negative else .positive

variable {fmt : Format}

theorem coe_exponentBias (fmt : Format) :
    (fmt.exponentBias : Int) = 2 ^ (fmt.exponentBits - 1) - 1 := by
  have hpos := Nat.two_pow_pos (fmt.exponentBits - 1)
  rw [Format.exponentBias, Nat.cast_sub hpos]
  push_cast
  rfl

/-- A mantissa with its first bit set stands for a normal number, any other for a subnormal one. -/
theorem Representable.normal_or_subnormal {m : Nat} {e : Int} (h : Representable fmt m e) :
    (m.log2 = fmt.mantissaBitsWithoutImplicit ∧
        1 ≤ e + fmt.exponentBias + fmt.mantissaBitsWithoutImplicit) ∨
      (m < 2 ^ fmt.mantissaBitsWithoutImplicit ∧
        e + fmt.exponentBias + fmt.mantissaBitsWithoutImplicit = 1) := by
  have hbias := coe_exponentBias fmt
  have hcanonical := h.canonical
  simp only [Format.targetExponent, Format.minExponent, totalExponent,
    Format.mantissaBits] at hcanonical
  push_cast at hcanonical
  rcases Nat.lt_or_ge m.log2 fmt.mantissaBitsWithoutImplicit with hlow | hhigh
  · exact .inr ⟨(Nat.log2_lt h.pos.ne').mp hlow, by omega⟩
  · exact .inl ⟨by omega, by omega⟩

/-! ### Unpacking -/

namespace Binary

theorem representable_of_unpack (hfmt : 2 ≤ fmt.exponentBits) {b : BitVec fmt.numBits} {s : Sign}
    {m : Nat} {e : Int} {hm : 0 < m} (h : UnpackedFloat.unpack fmt b = .finite s m e hm) :
    Representable fmt m e := by
  have hbias := coe_exponentBias fmt
  have hfewer : (unpackMantissa b).toNat < 2 ^ fmt.mantissaBitsWithoutImplicit := BitVec.isLt _
  have hexponent : (unpackExponent b).toNat < 2 ^ fmt.exponentBits := BitVec.isLt _
  have hfour : 2 ^ 2 ≤ 2 ^ fmt.exponentBits := Nat.pow_le_pow_right (by decide) hfmt
  unfold UnpackedFloat.unpack at h
  dsimp only at h
  split at h
  · split at h <;> cases h
  · rename_i hfinite
    have hne : (unpackExponent b).toNat ≠ 2 ^ fmt.exponentBits - 1 := by
      intro hsame
      apply hfinite
      rw [BitVec.neg_one_eq_allOnes, ← BitVec.toNat_inj, BitVec.toNat_allOnes, hsame]
    split at h
    · rename_i hzero
      have hfield : (unpackExponent b).toNat = 0 := by rw [hzero]; rfl
      split at h
      · cases h
      · cases h
        have hlog : (unpackMantissa b).toNat.log2 < fmt.mantissaBitsWithoutImplicit :=
          (Nat.log2_lt hm.ne').mpr hfewer
        refine ⟨hm, ?_, ?_⟩
        · simp only [hfield, Format.targetExponent, Format.minExponent, totalExponent,
            Format.mantissaBits, hbias]
          push_cast
          omega
        · omega
    · rename_i hnonzero
      have hfield : (unpackExponent b).toNat ≠ 0 := by
        intro hsame
        apply hnonzero
        rw [← BitVec.toNat_inj, hsame]
        rfl
      cases h
      have hlog : (1#1 ++ unpackMantissa b).toNat.log2 = fmt.mantissaBitsWithoutImplicit := by
        rw [Nat.log2_eq_iff hm.ne', BitVec.toNat_append, BitVec.toNat_ofNat, Nat.pow_one,
          Nat.mod_eq_of_lt (by decide), ← Nat.shiftLeft_add_eq_or_of_lt hfewer,
          Nat.one_shiftLeft]
        omega
      refine ⟨hm, ?_, ?_⟩
      · simp only [hlog, Format.targetExponent, Format.minExponent, totalExponent,
          Format.mantissaBits, hbias]
        push_cast
        omega
      · omega

/-- A mantissa field has room for a subnormal mantissa, and for a normal one without its first
bit. -/
theorem toNat_append_ofNat {m k : Nat} (h : m.log2 = k) (hm : m ≠ 0) :
    (1#1 ++ BitVec.ofNat k m).toNat = m := by
  obtain ⟨hle, hlt⟩ := (Nat.log2_eq_iff hm).mp h
  have hrest : m % 2 ^ k = m - 2 ^ k := by
    rw [Nat.mod_eq_sub_mod hle, Nat.mod_eq_of_lt (by omega)]
  rw [BitVec.toNat_append, BitVec.toNat_ofNat, Nat.pow_one, Nat.mod_eq_of_lt (by decide),
    BitVec.toNat_ofNat, ← Nat.shiftLeft_add_eq_or_of_lt (Nat.mod_lt _ (Nat.two_pow_pos k)),
    Nat.one_shiftLeft, hrest]
  omega

theorem unpack_pack_finite {m : Nat} {e : Int} (h : Representable fmt m e) (s : Sign) :
    (pack fmt (.finite s m e h.pos)).unpack = .finite s m e h.pos := by
  have hbounded := h.bounded
  have htwo : 2 ^ 1 ≤ 2 ^ fmt.exponentBits := Nat.pow_le_pow_right (by decide) fmt.he
  have hpack := Nat.not_le.mpr hbounded
  rcases h.normal_or_subnormal with ⟨hlog, hexponent⟩ | ⟨hlt, hexponent⟩
  · have hfield : (BitVec.ofNat fmt.exponentBits
        (e + fmt.exponentBias + fmt.mantissaBitsWithoutImplicit).toNat).toNat =
          (e + fmt.exponentBias + fmt.mantissaBitsWithoutImplicit).toNat := by
      rw [BitVec.toNat_ofNat, Nat.mod_eq_of_lt (by omega)]
    have hfinite : BitVec.ofNat fmt.exponentBits
        (e + fmt.exponentBias + fmt.mantissaBitsWithoutImplicit).toNat ≠ -1#_ := by
      rw [BitVec.neg_one_eq_allOnes, ← BitVec.toNat_inj.ne, hfield, BitVec.toNat_allOnes]
      omega
    have hnonzero : BitVec.ofNat fmt.exponentBits
        (e + fmt.exponentBias + fmt.mantissaBitsWithoutImplicit).toNat ≠ 0#_ := by
      rw [← BitVec.toNat_inj.ne, hfield, BitVec.toNat_ofNat, Nat.zero_mod]
      omega
    have hmantissa : m.log2 + 1 = fmt.mantissaBits := by rw [Format.mantissaBits]; omega
    simp only [Binary.unpack, Binary.pack, UnpackedFloat.pack, if_neg hpack, if_pos hmantissa,
      UnpackedFloat.unpack, unpackExponent_packComponents, unpackMantissa_packComponents,
      unpackSign_packComponents, if_neg hfinite, if_neg hnonzero, Sign.ofBitVec_toBitVec, hfield,
      toNat_append_ofNat hlog h.pos.ne']
    congr 1
    omega
  · have hlog : m.log2 < fmt.mantissaBitsWithoutImplicit := (Nat.log2_lt h.pos.ne').mpr hlt
    have hmantissa : m.log2 + 1 ≠ fmt.mantissaBits := by rw [Format.mantissaBits]; omega
    have hfield : (BitVec.ofNat fmt.mantissaBitsWithoutImplicit m).toNat = m := by
      rw [BitVec.toNat_ofNat, Nat.mod_eq_of_lt hlt]
    have hnonzero : BitVec.ofNat fmt.mantissaBitsWithoutImplicit m ≠ 0#_ := by
      rw [← BitVec.toNat_inj.ne, hfield, BitVec.toNat_ofNat, Nat.zero_mod]
      exact h.pos.ne'
    have hfinite : (0#_ : BitVec fmt.exponentBits) ≠ -1#_ := by
      rw [BitVec.neg_one_eq_allOnes, ← BitVec.toNat_inj.ne, BitVec.toNat_allOnes,
        BitVec.toNat_ofNat, Nat.zero_mod]
      omega
    simp only [Binary.unpack, Binary.pack, UnpackedFloat.pack, if_neg hpack, if_neg hmantissa,
      UnpackedFloat.unpack, unpackExponent_packComponents, unpackMantissa_packComponents,
      unpackSign_packComponents, if_neg hfinite, if_true, dif_neg hnonzero,
      Sign.ofBitVec_toBitVec, hfield, BitVec.toNat_ofNat, Nat.zero_mod]
    congr 1
    omega

@[simp] theorem unpack_pack_zero (s : Sign) : (pack fmt (.zero s)).unpack = .zero s :=
  unpack_packedZero

@[simp] theorem unpack_pack_infinity (s : Sign) :
    (pack fmt (.infinity s)).unpack = .infinity s := by
  simp [Binary.unpack, Binary.pack, UnpackedFloat.pack, packedInfinity, UnpackedFloat.unpack]

@[simp] theorem unpack_pack_notANumber : (pack fmt .notANumber).unpack = .notANumber :=
  unpack_packedNaN

theorem isNaN_eq_isNaNBits (x : Binary fmt) : x.isNaN = isNaNBits x.bits := by
  unfold isNaN Binary.unpack UnpackedFloat.unpack isNaNBits
  dsimp only
  split
  · rename_i hfield
    split
    · rename_i hmantissa
      simp [UnpackedFloat.isNaN, hmantissa]
    · rename_i hmantissa
      simp [UnpackedFloat.isNaN, hfield, hmantissa]
  · rename_i hfield
    split
    · split <;> simp [UnpackedFloat.isNaN, hfield]
    · simp [UnpackedFloat.isNaN, hfield]

theorem pack_unpack_of_isNaN_eq_false (hfmt : 2 ≤ fmt.exponentBits) {x : Binary fmt}
    (h : x.isNaN = false) : pack fmt x.unpack = x := by
  have hbits : isNaNBits x.bits = false := by rw [← isNaN_eq_isNaNBits, h]
  rw [Binary.pack, Binary.unpack, UnpackedFloat.pack_unpack _ hfmt, hbits]
  rfl

/-! ### Signs -/

theorem signOf_isNegative (x : Binary fmt) :
    signOf x.isNegative = Sign.ofBitVec (unpackSign x.bits) := by
  have hbit : unpackSign x.bits = BitVec.ofBool x.isNegative := by
    apply BitVec.eq_of_getLsbD_eq
    intro i hi
    obtain rfl : i = 0 := by omega
    have hlast : fmt.numBits - 1 = fmt.mantissaBitsWithoutImplicit + fmt.exponentBits := by
      change 1 + fmt.exponentBits + fmt.mantissaBitsWithoutImplicit - 1 = _
      omega
    simp [unpackSign_def, isNegative, BitVec.msb_eq_getLsbD_last, hlast]
  rw [hbit]
  cases x.isNegative <;> rfl

theorem neg_packComponents (s : Sign) (e : BitVec fmt.exponentBits)
    (m : BitVec fmt.mantissaBitsWithoutImplicit) :
    (⟨packComponents fmt s e m⟩ : Binary fmt).neg = ⟨packComponents fmt (-s) e m⟩ := by
  have hbits : fmt.numBits = 1 + fmt.exponentBits + fmt.mantissaBitsWithoutImplicit := rfl
  unfold neg packComponents
  congr 1
  apply BitVec.eq_of_getLsbD_eq
  intro i hi
  simp only [BitVec.getLsbD_xor, BitVec.getLsbD_twoPow, BitVec.getLsbD_append]
  -- a bit belongs to the mantissa, to the exponent, or is the sign
  by_cases hmantissa : i < fmt.mantissaBitsWithoutImplicit
  · have hother : fmt.numBits - 1 ≠ i := by omega
    simp [hmantissa, hother]
  · by_cases hexponent : i - fmt.mantissaBitsWithoutImplicit < fmt.exponentBits
    · have hother : fmt.numBits - 1 ≠ i := by omega
      simp [hmantissa, hexponent, hother]
    · have hlast : fmt.numBits - 1 = i := by omega
      have hfirst : i - fmt.mantissaBitsWithoutImplicit - fmt.exponentBits = 0 := by omega
      simp only [hmantissa, hexponent, hfirst, hlast, if_false]
      cases s <;> simp [hi, Sign.toBitVec]

theorem withSign_packComponents (negative : Bool) (e : BitVec fmt.exponentBits)
    (m : BitVec fmt.mantissaBitsWithoutImplicit) :
    withSign negative (⟨packComponents fmt .positive e m⟩ : Binary fmt) =
      ⟨packComponents fmt (signOf negative) e m⟩ := by
  cases negative with
  | false => rfl
  | true => exact neg_packComponents .positive e m

theorem withSign_pack_zero (negative : Bool) :
    withSign negative (pack fmt (.zero .positive)) = pack fmt (.zero (signOf negative)) :=
  withSign_packComponents negative 0 0

theorem withSign_pack_infinity (negative : Bool) :
    withSign negative (pack fmt (.infinity .positive)) = pack fmt (.infinity (signOf negative)) :=
  withSign_packComponents negative (-1#_) 0

theorem withSign_pack_finite (negative : Bool) {m : Nat} (e : Int) (hm : 0 < m) :
    withSign negative (pack fmt (.finite .positive m e hm)) =
      pack fmt (.finite (signOf negative) m e hm) := by
  simp only [pack, UnpackedFloat.pack]
  split
  · exact withSign_packComponents negative (-1#_) 0
  · split
    · exact withSign_packComponents negative _ _
    · exact withSign_packComponents negative _ _

theorem isNaN_nan (negative : Bool) : (nan fmt negative).isNaN := by
  have hnan : isNaNBits (packedNaN fmt) = true := isNaNBits_packedNaN
  simp only [packedNaN, isNaNBits, unpackExponent_packComponents, unpackMantissa_packComponents,
    true_and] at hnan
  have hsigned : nan fmt negative = ⟨packComponents fmt (signOf negative) (-1#_) _⟩ :=
    withSign_packComponents negative _ _
  simpa only [isNaN_eq_isNaNBits, hsigned, isNaNBits, unpackExponent_packComponents,
    unpackMantissa_packComponents, true_and] using hnan

/-- What a bit pattern holds has the sign of the sign bit, unless it is not a number. -/
theorem unpack_cases (hfmt : 2 ≤ fmt.exponentBits) (x : Binary fmt) :
    x.unpack = .notANumber ∨ x.unpack = .infinity (signOf x.isNegative) ∨
      x.unpack = .zero (signOf x.isNegative) ∨
      ∃ m e, ∃ h : Representable fmt m e,
        x.unpack = .finite (signOf x.isNegative) m e h.pos := by
  have hfinite : ∀ {s m e} {hm : 0 < m}, x.unpack = .finite s m e hm → Representable fmt m e :=
    representable_of_unpack hfmt
  rw [signOf_isNegative]
  generalize hx : x.unpack = u at hfinite
  unfold Binary.unpack UnpackedFloat.unpack at hx
  dsimp only at hx
  split at hx
  · split at hx
    · exact .inr (.inl hx.symm)
    · exact .inl hx.symm
  · split at hx
    · split at hx
      · exact .inr (.inr (.inl hx.symm))
      · exact .inr (.inr (.inr ⟨_, _, hfinite hx.symm, hx.symm⟩))
    · exact .inr (.inr (.inr ⟨_, _, hfinite hx.symm, hx.symm⟩))

theorem signOf_isNegative_of_unpack (hfmt : 2 ≤ fmt.exponentBits) {x : Binary fmt} {s : Sign}
    (h : x.unpack = .infinity s ∨ x.unpack = .zero s ∨ ∃ m e hm, x.unpack = .finite s m e hm) :
    signOf x.isNegative = s := by
  rcases unpack_cases hfmt x with hx | hx | hx | ⟨m, e, hrep, hx⟩
  · simp [hx] at h
  · simpa [hx] using h
  · simpa [hx] using h
  · simp only [hx, reduceCtorEq, false_or, UnpackedFloat.finite.injEq] at h
    obtain ⟨_, _, _, hs, -⟩ := h
    exact hs

theorem isFinite_iff {x : Binary fmt} :
    x.isFinite ↔ x.isNaN = false ∧ x.isInfinite = false := by
  rw [isFinite, isNaN, isInfinite]
  cases x.unpack with
  | notANumber | infinity s =>
      simp [UnpackedFloat.isFinite, UnpackedFloat.isNaN, UnpackedFloat.isInf]
  | zero s | finite s m e hm =>
      simp [UnpackedFloat.isFinite, UnpackedFloat.isNaN, UnpackedFloat.isInf]

/-! ### Numbers without a sign -/

/-- A number whose sign bit is clear. -/
structure Unsigned (x : Binary fmt) : Prop where
  isNaN : x.isNaN = false
  isNegative : x.isNegative = false

theorem Unsigned.isFinite {x : Binary fmt} (h : x.Unsigned) (hfinite : x.isInfinite = false) :
    x.isFinite :=
  isFinite_iff.mpr ⟨h.isNaN, hfinite⟩

theorem unsigned_packComponents {e : BitVec fmt.exponentBits}
    {m : BitVec fmt.mantissaBitsWithoutImplicit} (h : e = -1#_ → m = 0) :
    Unsigned (⟨packComponents fmt .positive e m⟩ : Binary fmt) where
  isNaN := by
    rw [isNaN_eq_isNaNBits, isNaNBits, unpackExponent_packComponents, unpackMantissa_packComponents]
    exact decide_eq_false fun hnan => hnan.2 (h hnan.1)
  isNegative := by
    have hsign := signOf_isNegative (⟨packComponents fmt .positive e m⟩ : Binary fmt)
    rw [unpackSign_packComponents, Sign.ofBitVec_toBitVec, signOf] at hsign
    split at hsign
    · cases hsign
    · rename_i hclear
      exact Bool.not_eq_true _ ▸ hclear

theorem unsigned_pack_zero : (pack fmt (.zero .positive)).Unsigned :=
  unsigned_packComponents fun _ => rfl

theorem unsigned_pack_finite {m : Nat} {e : Int} (hm : 0 < m) :
    (pack fmt (.finite .positive m e hm)).Unsigned := by
  have htwo : 2 ^ 1 ≤ 2 ^ fmt.exponentBits := Nat.pow_le_pow_right (by decide) fmt.he
  have hones : (-1#_ : BitVec fmt.exponentBits).toNat = 2 ^ fmt.exponentBits - 1 := by
    rw [BitVec.neg_one_eq_allOnes, BitVec.toNat_allOnes]
  simp only [pack, UnpackedFloat.pack]
  split
  · exact unsigned_packComponents fun _ => rfl
  · rename_i hbounded
    split
    · refine unsigned_packComponents fun hexponent => absurd (congrArg BitVec.toNat hexponent) ?_
      rw [hones, BitVec.toNat_ofNat, Nat.mod_eq_of_lt (by omega)]
      omega
    · refine unsigned_packComponents fun hexponent => absurd (congrArg BitVec.toNat hexponent) ?_
      rw [hones, BitVec.toNat_ofNat, Nat.zero_mod]
      omega

end Binary

end PenFilter
