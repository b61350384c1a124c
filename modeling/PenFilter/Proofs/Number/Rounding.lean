import PenFilter.Proofs.Number.Packing

/-! # Rounding to a binary format

`nearest fmt s v` is the positive rational number `v`, with the sign `s`, in the format `fmt`: the
nearest multiple of the power of two that the format wants for numbers as large as `v`, and of two
nearest ones the even one.  Rounding by bits computes it from any form of the number, whatever
mantissa and exponent it is given and however many digits are behind them
(`roundWithAccuracy_eq_nearest`).  The reason is that a mantissa with its two residual bits stands
for exactly one interval of numbers (`Represents.unique`), and shifting passes from a number to its
half (`Represents.shiftRightOne`). -/

namespace PenFilter

open Float.Model UnpackedFloat

/-! ### Residual bits -/

/-- The whole number nearest to `u`; of two nearest ones the even one. -/
def nearestEven (u : ℚ) : Nat :=
  if u < ⌊u⌋₊ + 1 / 2 then ⌊u⌋₊
  else if u = ⌊u⌋₊ + 1 / 2 then ⌊u⌋₊ + ⌊u⌋₊ % 2
  else ⌊u⌋₊ + 1

/-- A mantissa with its residual bits is what can be told of the number `u`. -/
structure Represents (em : ExtendedMantissa) (u : ℚ) : Prop where
  lower : em.mantissa ≤ u
  upper : u < em.mantissa + 1
  roundBit : em.roundBit = true ↔ em.mantissa + 1 / 2 ≤ u
  stickyBit : em.stickyBit = true ↔ u ≠ em.mantissa ∧ u ≠ em.mantissa + 1 / 2

namespace Represents

variable {em : ExtendedMantissa} {u : ℚ}

theorem floor_eq (h : Represents em u) : ⌊u⌋₊ = em.mantissa :=
  (Nat.floor_eq_iff (le_trans (Nat.cast_nonneg _) h.lower)).mpr ⟨h.lower, h.upper⟩

theorem unique {em' : ExtendedMantissa} (h : Represents em u) (h' : Represents em' u) :
    em = em' := by
  have hmantissa : em.mantissa = em'.mantissa := h.floor_eq.symm.trans h'.floor_eq
  have hround : em.roundBit = em'.roundBit := by
    rw [Bool.eq_iff_iff, h.roundBit, h'.roundBit, hmantissa]
  have hsticky : em.stickyBit = em'.stickyBit := by
    rw [Bool.eq_iff_iff, h.stickyBit, h'.stickyBit, hmantissa]
  cases em
  cases em'
  simp_all

theorem roundedMantissa_eq (h : Represents em u) : em.roundedMantissa = nearestEven u := by
  have hround := h.roundBit
  have hsticky := h.stickyBit
  rw [nearestEven, h.floor_eq]
  obtain ⟨m, r, s⟩ := em
  cases r with
  | false =>
      have hbelow : u < m + 1 / 2 := by simpa using hround
      rw [if_pos hbelow]
      cases s <;> rfl
  | true =>
      have habove : (m : ℚ) + 1 / 2 ≤ u := by simpa using hround
      have hne : u ≠ m := by linarith
      rw [if_neg (not_lt.mpr habove)]
      cases s with
      | false =>
          have hmiddle : u = m + 1 / 2 := by simpa [hne] using hsticky
          rw [if_pos hmiddle]
          rfl
      | true =>
          have hmiddle : u ≠ m + 1 / 2 := by simpa [hne] using hsticky
          rw [if_neg hmiddle]
          rfl

/-- One of the residual bits is set exactly when something is left. -/
theorem residual (h : Represents em u) :
    (em.roundBit || em.stickyBit) = true ↔ u ≠ em.mantissa := by
  rw [Bool.or_eq_true, h.roundBit, h.stickyBit]
  constructor
  · rintro (hround | ⟨hne, -⟩)
    · linarith
    · exact hne
  · intro hne
    by_cases hround : (em.mantissa : ℚ) + 1 / 2 ≤ u
    · exact .inl hround
    · exact .inr ⟨hne, by linarith⟩

theorem shiftRightOne (h : Represents em u) : Represents em.shiftRightOne (u / 2) := by
  have hlower := h.lower
  have hupper := h.upper
  have hresidual := h.residual
  -- the bit that leaves the mantissa is the next round bit
  rcases Nat.even_or_odd' em.mantissa with ⟨k, hk | hk⟩
  · have hhalf : em.mantissa / 2 = k := by omega
    have hbit : em.mantissa % 2 = 0 := by omega
    rw [hk] at hlower hupper hresidual
    push_cast at hlower hupper hresidual
    refine ⟨?_, ?_, ?_, ?_⟩
    all_goals simp only [ExtendedMantissa.shiftRightOne, hhalf, hbit, hresidual]
    · linarith
    · linarith
    · constructor
      · intro hround
        cases hround
      · intro hround
        linarith
    · constructor
      · intro hne
        exact ⟨fun hsame => hne (by linarith), by linarith⟩
      · rintro ⟨hne, -⟩ rfl
        exact hne (by ring)
  · have hhalf : em.mantissa / 2 = k := by omega
    have hbit : em.mantissa % 2 = 1 := by omega
    rw [hk] at hlower hupper hresidual
    push_cast at hlower hupper hresidual
    refine ⟨?_, ?_, ?_, ?_⟩
    all_goals simp only [ExtendedMantissa.shiftRightOne, hhalf, hbit, hresidual]
    · linarith
    · linarith
    · exact ⟨fun _ => by linarith, fun _ => rfl⟩
    · constructor
      · intro hne
        exact ⟨by linarith, fun hsame => hne (by linarith)⟩
      · rintro ⟨-, hne⟩ rfl
        exact hne (by ring)

theorem shiftRight (h : Represents em u) (n : Nat) : Represents (em >>> n) (u / 2 ^ n) := by
  induction n with
  | zero =>
      rw [pow_zero, div_one]
      exact h
  | succ n ih =>
      rw [pow_succ, ← div_div]
      exact ih.shiftRightOne

theorem exact (m : Nat) : Represents (.ofMantissaAndAccuracy m .exact) m where
  lower := le_rfl
  upper := lt_add_one _
  roundBit := by simp [ExtendedMantissa.ofMantissaAndAccuracy]
  stickyBit := by simp [ExtendedMantissa.ofMantissaAndAccuracy]

/-- A fraction that is left is below the middle, in it or above it. -/
theorem inexact (m : Nat) {f : ℚ} (hpos : 0 < f) (hone : f < 1) {o : Ordering}
    (ho : compare f (1 / 2) = o) :
    Represents (.ofMantissaAndAccuracy m (.inexact o)) (m + f) where
  lower := by cases o <;> simp [ExtendedMantissa.ofMantissaAndAccuracy, hpos.le]
  upper := by cases o <;> simp [ExtendedMantissa.ofMantissaAndAccuracy, hone]
  roundBit := by
    cases o with
    | lt => simpa [ExtendedMantissa.ofMantissaAndAccuracy] using compare_lt_iff_lt.mp ho
    | eq => simpa [ExtendedMantissa.ofMantissaAndAccuracy] using (compare_eq_iff_eq.mp ho).ge
    | gt => simpa [ExtendedMantissa.ofMantissaAndAccuracy] using (compare_gt_iff_gt.mp ho).le
  stickyBit := by
    cases o with
    | lt =>
        simpa [ExtendedMantissa.ofMantissaAndAccuracy, hpos.ne'] using (compare_lt_iff_lt.mp ho).ne
    | eq => simpa [ExtendedMantissa.ofMantissaAndAccuracy, hpos.ne'] using compare_eq_iff_eq.mp ho
    | gt =>
        simpa [ExtendedMantissa.ofMantissaAndAccuracy, hpos.ne'] using (compare_gt_iff_gt.mp ho).ne'

theorem fraction (m : Nat) {d : Nat} (hd : 0 < d) :
    Represents (.ofMantissaAndAccuracy (m / d) (accuracyOfFraction (m % d) d)) (m / d : ℚ) := by
  have hpos : (0 : ℚ) < d := Nat.cast_pos.mpr hd
  have hsplit : (m / d : ℚ) = (m / d : Nat) + (m % d : Nat) / (d : ℚ) := by
    have hdivision : (m : ℚ) = d * (m / d : Nat) + (m % d : Nat) := by
      exact_mod_cast (Nat.div_add_mod m d).symm
    field_simp
    linarith
  have hlt : ((m % d : Nat) : ℚ) < d := Nat.cast_lt.mpr (Nat.mod_lt _ hd)
  rw [hsplit, accuracyOfFraction]
  generalize m % d = r at hlt
  split
  · rename_i hr
    simpa [hr] using exact (m / d)
  · rename_i hr
    refine inexact _ (by positivity) ((div_lt_one hpos).mpr hlt) ?_
    have hmiddle : (1 / 2 : ℚ) = d / (2 * d) := by field_simp
    have hscaled : (r : ℚ) / d = (2 * r : Nat) / (2 * d) := by push_cast; field_simp
    rw [hmiddle, hscaled]
    rcases Nat.lt_trichotomy (2 * r) d with h | h | h
    · rw [Nat.compare_eq_lt.mpr h, compare_lt_iff_lt]
      gcongr
    · rw [Nat.compare_eq_eq.mpr h, h, compare_eq_iff_eq]
    · rw [Nat.compare_eq_gt.mpr h, compare_gt_iff_gt]
      gcongr

end Represents

/-! ### The nearest number of a format -/

/-- The number of a format that is nearest to `v`, with a sign.  When rounding gives the mantissa
one digit too many, that is a zero, and it goes into the exponent. -/
def nearest (fmt : Format) (s : Sign) (v : ℚ) : UnpackedFloat :=
  let e := fmt.targetExponent (Int.log 2 v + 1)
  let m := nearestEven (v / 2 ^ e)
  if h : m = 0 then .zero s
  else if m = 2 ^ fmt.mantissaBits then
    .finite s (2 ^ fmt.mantissaBitsWithoutImplicit) (e + 1) (Nat.two_pow_pos _)
  else .finite s m e (Nat.pos_of_ne_zero h)

variable {fmt : Format}

theorem nearestEven_le (u : ℚ) : nearestEven u ≤ ⌊u⌋₊ + 1 := by
  unfold nearestEven
  split_ifs <;> omega

theorem le_nearestEven (u : ℚ) : ⌊u⌋₊ ≤ nearestEven u := by
  unfold nearestEven
  split_ifs <;> omega

theorem log_mul_zpow {u : ℚ} (hu : 0 < u) (k : Int) :
    Int.log 2 (u * 2 ^ k) = Int.log 2 u + k := by
  have hpow : (0 : ℚ) < 2 ^ k := by positivity
  refine eq_of_forall_le_iff fun x => ?_
  rw [← Int.zpow_le_iff_le_log Nat.one_lt_two (by positivity), ← sub_le_iff_le_add,
    ← Int.zpow_le_iff_le_log Nat.one_lt_two hu, zpow_sub₀ (by norm_num), Nat.cast_ofNat,
    div_le_iff₀ hpow]

theorem lt_two_zpow_of_log_lt {v : ℚ} {k : Int} (h : Int.log 2 v < k) : v < 2 ^ k := by
  have hnext := Int.lt_zpow_succ_log_self Nat.one_lt_two v
  rw [Nat.cast_ofNat] at hnext
  exact hnext.trans_le (zpow_le_zpow_right₀ (by norm_num) (by omega))

/-- The position of the leading digit of a number is that of its mantissa, shifted. -/
theorem totalExponent_of_represents {m : Nat} {e : Int} {a : Accuracy} {v : ℚ} (hm : m ≠ 0)
    (h : Represents (.ofMantissaAndAccuracy m a) (v / 2 ^ e)) :
    totalExponent m e = Int.log 2 v + 1 := by
  have hmantissa : (ExtendedMantissa.ofMantissaAndAccuracy m a).mantissa = m := by
    cases a with
    | exact => rfl
    | inexact o => cases o <;> rfl
  have hfloor := h.floor_eq
  have hlower := h.lower
  rw [hmantissa] at hfloor hlower
  have hone : (1 : ℚ) ≤ v / 2 ^ e :=
    le_trans (by exact_mod_cast Nat.pos_of_ne_zero hm) hlower
  have hscaled : v / 2 ^ e * 2 ^ e = v := div_mul_cancel₀ v (by positivity)
  rw [← hscaled, log_mul_zpow (by linarith), Int.log_of_one_le_right 2 hone, hfloor,
    totalExponent, Nat.log2_eq_log_two]
  omega

/-- The exponent that the format wants for a number can be told from its mantissa, even if this is
zero because all digits are behind it. -/
theorem targetExponent_of_represents {m : Nat} {e : Int} {a : Accuracy} {v : ℚ} (hv : 0 < v)
    (h : Represents (.ofMantissaAndAccuracy m a) (v / 2 ^ e))
    (he : e ≤ fmt.targetExponent (Int.log 2 v + 1)) :
    fmt.targetExponent (totalExponent m e) = fmt.targetExponent (Int.log 2 v + 1) := by
  by_cases hm : m = 0
  · subst hm
    have hupper : v / 2 ^ e < 1 := by
      cases a with
      | exact => simpa [ExtendedMantissa.ofMantissaAndAccuracy] using h.upper
      | inexact o => cases o <;> simpa [ExtendedMantissa.ofMantissaAndAccuracy] using h.upper
    rw [div_lt_one (by positivity)] at hupper
    have hlog : Int.log 2 v < e := by
      rw [← Int.lt_zpow_iff_log_lt Nat.one_lt_two hv]
      exact_mod_cast hupper
    have hpos := fmt.hm
    simp only [Format.targetExponent, Format.mantissaBits, totalExponent] at he ⊢
    have hzero : (0 : Nat).log2 = 0 := rfl
    rw [hzero]
    push_cast at he ⊢
    omega
  · rw [totalExponent_of_represents hm h]

theorem div_targetExponent_lt (v : ℚ) :
    v / 2 ^ fmt.targetExponent (Int.log 2 v + 1) < 2 ^ fmt.mantissaBits := by
  rw [div_lt_iff₀ (by positivity), ← zpow_natCast, ← zpow_add₀ (by norm_num)]
  apply lt_two_zpow_of_log_lt
  simp only [Format.targetExponent]
  omega

theorem targetExponent_le {r : Nat} {t : Int} (hr : r < 2 ^ fmt.mantissaBits)
    (ht : fmt.minExponent ≤ t) : fmt.targetExponent (totalExponent r t) ≤ t := by
  have hlog : r.log2 < fmt.mantissaBits := by
    by_cases hzero : r = 0
    · rw [hzero, Format.mantissaBits]
      exact Nat.lt_of_lt_of_le Nat.zero_lt_one (Nat.le_add_right 1 _)
    · exact (Nat.log2_lt hzero).mpr hr
  simp only [Format.targetExponent, totalExponent]
  omega

theorem targetExponent_two_pow {t : Int} (ht : fmt.minExponent ≤ t) :
    fmt.targetExponent (totalExponent (2 ^ fmt.mantissaBits) t) = t + 1 := by
  simp only [Format.targetExponent, totalExponent, Nat.log2_two_pow]
  omega

/-- Rounding by bits finds the nearest number, from any form of the number that begins no later
than the result. -/
theorem roundWithAccuracy_eq_nearest {m : Nat} {e : Int} {a : Accuracy} {v : ℚ} (s : Sign)
    (hv : 0 < v) (h : Represents (.ofMantissaAndAccuracy m a) (v / 2 ^ e))
    (he : e ≤ fmt.targetExponent (Int.log 2 v + 1)) :
    roundWithAccuracy fmt s m e a = nearest fmt s v := by
  have hfirst := targetExponent_of_represents hv h he
  have hlarge : v / 2 ^ fmt.targetExponent (Int.log 2 v + 1) < 2 ^ fmt.mantissaBits :=
    div_targetExponent_lt v
  have hlow : fmt.minExponent ≤ fmt.targetExponent (Int.log 2 v + 1) := le_max_right _ _
  simp only [nearest]
  generalize fmt.targetExponent (Int.log 2 v + 1) = t at *
  obtain ⟨k, rfl⟩ := Int.le.dest he
  have hshifted := h.shiftRight k
  rw [div_div, ← zpow_natCast, ← zpow_add₀ (by norm_num : (2 : ℚ) ≠ 0)] at hshifted
  have hrounded := hshifted.roundedMantissa_eq
  have hsize : nearestEven (v / 2 ^ (e + k)) ≤ 2 ^ fmt.mantissaBits := by
    refine (nearestEven_le _).trans ?_
    have hfloor : ⌊v / 2 ^ (e + (k : Int))⌋₊ < 2 ^ fmt.mantissaBits := by
      rw [Nat.floor_lt (by positivity)]
      exact_mod_cast hlarge
    omega
  have hk : (e + (k : Int) - e).toNat = k := by omega
  simp only [roundWithAccuracy, shiftToTargetExponent, shiftToExponent, hfirst, hk, hrounded]
  generalize nearestEven (v / 2 ^ (e + (k : Int))) = r at *
  rcases Nat.lt_or_eq_of_le hsize with hr | rfl
  · have hstays : (fmt.targetExponent (totalExponent r (e + k)) - (e + k)).toNat = 0 := by
      have hle := targetExponent_le hr hlow
      omega
    have hmantissa : (ExtendedMantissa.ofMantissaAndAccuracy r .exact >>> 0).mantissa = r := rfl
    simp only [hstays, hmantissa, if_neg hr.ne, Nat.cast_zero, add_zero]
  · have hmoves : (fmt.targetExponent (totalExponent (2 ^ fmt.mantissaBits) (e + k)) -
        (e + k)).toNat = 1 := by
      rw [targetExponent_two_pow hlow]
      omega
    have hmantissa : (ExtendedMantissa.ofMantissaAndAccuracy (2 ^ fmt.mantissaBits)
        .exact >>> 1).mantissa = 2 ^ fmt.mantissaBitsWithoutImplicit := by
      change 2 ^ (1 + fmt.mantissaBitsWithoutImplicit) / 2 = _
      rw [pow_add, pow_one, Nat.mul_div_cancel_left _ Nat.two_pos]
    simp only [hmoves, hmantissa, Nat.cast_one]
    rw [dif_neg (Nat.two_pow_pos _).ne', dif_neg (Nat.two_pow_pos _).ne', if_pos trivial]

theorem totalExponent_eq_log {m : Nat} (hm : 0 < m) (e : Int) :
    totalExponent m e = Int.log 2 ((m : ℚ) * 2 ^ e) + 1 := by
  rw [log_mul_zpow (Nat.cast_pos.mpr hm), Int.log_natCast, totalExponent, Nat.log2_eq_log_two]
  omega

theorem round_eq_nearest (s : Sign) {m : Nat} (hm : 0 < m) (e : Int) :
    UnpackedFloat.round fmt s m e = nearest fmt s (m * 2 ^ e) := by
  have hm' : (0 : ℚ) < m := Nat.cast_pos.mpr hm
  unfold UnpackedFloat.round decreaseExponent
  dsimp only
  have htotal := totalExponent_eq_log hm e
  apply roundWithAccuracy_eq_nearest s (by positivity)
  · generalize (e - fmt.targetExponent (totalExponent m e)).toNat = k
    have hsame : (m : ℚ) * 2 ^ e / 2 ^ (e - (k : Int)) = (m <<< k : Nat) := by
      rw [Nat.shiftLeft_eq, zpow_sub₀ (by norm_num), zpow_natCast]
      push_cast
      field_simp
    rw [hsame]
    exact Represents.exact _
  · rw [htotal]
    omega

theorem nearestEven_natCast (n : Nat) : nearestEven n = n := by
  have hbelow : (n : ℚ) < n + 1 / 2 := by linarith
  rw [nearestEven, Nat.floor_natCast, if_pos hbelow]

theorem nearest_of_representable {m : Nat} {e : Int} (h : Representable fmt m e) (s : Sign) :
    nearest fmt s (m * 2 ^ e) = .finite s m e h.pos := by
  have htarget : fmt.targetExponent (Int.log 2 ((m : ℚ) * 2 ^ e) + 1) = e := by
    rw [← totalExponent_eq_log h.pos, h.canonical]
  have hmantissa : nearestEven ((m : ℚ) * 2 ^ e / 2 ^ e) = m := by
    rw [mul_div_cancel_right₀ _ (by positivity), nearestEven_natCast]
  have hne : m ≠ 2 ^ fmt.mantissaBits := by
    rintro rfl
    have hmoves := h.canonical
    simp only [Format.targetExponent, totalExponent, Nat.log2_two_pow] at hmoves
    omega
  simp only [nearest, htarget, hmantissa, dif_neg h.pos.ne', if_neg hne]

theorem nearest_zero (s : Sign) : nearest fmt s 0 = .zero s := by
  simp [nearest, nearestEven]

/-- What is less than half of the smallest number of the format becomes zero. -/
theorem nearest_of_small {v : ℚ} (hv : 0 < v) (h : v < 2 ^ (fmt.minExponent - 1)) (s : Sign) :
    nearest fmt s v = .zero s := by
  have hlog : Int.log 2 v < fmt.minExponent - 1 := by
    rw [← Int.lt_zpow_iff_log_lt Nat.one_lt_two hv]
    exact_mod_cast h
  have htarget : fmt.targetExponent (Int.log 2 v + 1) = fmt.minExponent := by
    rw [Format.targetExponent]
    omega
  have hhalf : v / 2 ^ fmt.minExponent < 1 / 2 := by
    rw [div_lt_iff₀ (by positivity)]
    rw [zpow_sub₀ (by norm_num), zpow_one] at h
    linarith
  have hfloor : ⌊v / 2 ^ fmt.minExponent⌋₊ = 0 := Nat.floor_eq_zero.mpr (by linarith)
  have hmantissa : nearestEven (v / 2 ^ fmt.minExponent) = 0 := by
    rw [nearestEven, hfloor, Nat.cast_zero, zero_add, if_pos hhalf]
  simp [nearest, htarget, hmantissa]

theorem pack_finite_of_large {m : Nat} {e : Int} (hm : 0 < m) (s : Sign)
    (h : 2 ^ fmt.exponentBits ≤
      (e + fmt.exponentBias + fmt.mantissaBitsWithoutImplicit).toNat + 1) :
    Binary.pack fmt (.finite s m e hm) = Binary.pack fmt (.infinity s) := by
  simp only [Binary.pack, UnpackedFloat.pack, if_pos h]

/-- What is too large for the format becomes infinite in its bit pattern. -/
theorem pack_nearest_of_large {v : ℚ} (hv : 0 < v)
    (h : (2 : ℚ) ^ (fmt.exponentBias + 1) ≤ v) (s : Sign) :
    Binary.pack fmt (nearest fmt s v) = Binary.pack fmt (.infinity s) := by
  have hlog : (fmt.exponentBias : Int) + 1 ≤ Int.log 2 v := by
    rw [← Int.zpow_le_iff_le_log Nat.one_lt_two hv]
    exact_mod_cast h
  have hbias : 2 * fmt.exponentBias + 2 = 2 ^ fmt.exponentBits := by
    have hpos := Nat.two_pow_pos (fmt.exponentBits - 1)
    have hhalf : 2 * 2 ^ (fmt.exponentBits - 1) = 2 ^ fmt.exponentBits :=
      mul_pow_sub_one fmt.he.ne' 2
    rw [← hhalf, Format.exponentBias]
    omega
  have htarget : Int.log 2 v + 1 - fmt.mantissaBits ≤ fmt.targetExponent (Int.log 2 v + 1) :=
    le_max_left _ _
  have hle : fmt.targetExponent (Int.log 2 v + 1) ≤ Int.log 2 v := by
    have hexponent := coe_exponentBias fmt
    simp only [Format.targetExponent, Format.minExponent, Format.mantissaBits]
    push_cast
    omega
  have hmantissa : nearestEven (v / 2 ^ fmt.targetExponent (Int.log 2 v + 1)) ≠ 0 := by
    have hone : 1 ≤ v / 2 ^ fmt.targetExponent (Int.log 2 v + 1) := by
      rw [one_le_div₀ (by positivity)]
      have hself := Int.zpow_log_le_self Nat.one_lt_two hv
      rw [Nat.cast_ofNat] at hself
      exact (zpow_le_zpow_right₀ (by norm_num) hle).trans hself
    have hfloor := Nat.floor_pos.mpr hone
    have hge := le_nearestEven (v / 2 ^ fmt.targetExponent (Int.log 2 v + 1))
    omega
  rw [Format.mantissaBits] at htarget
  push_cast at htarget
  simp only [nearest, dif_neg hmantissa]
  split
  · exact pack_finite_of_large _ s (by omega)
  · exact pack_finite_of_large _ s (by omega)

end PenFilter
