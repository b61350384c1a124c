import PenFilter.Number.Layout
import PenFilter.Proofs.Number.Rounding
import PenFilter.Proofs.Text

/-! # Decimals and the numbers they denote

A decimal is read as the nearest number of the format, so that only its value matters
(`Binary.ofDecimal_eq_pack_nearest`); the limits on exponents, which spare computing with huge
powers of ten, make no difference.  The decimal that stands for a number in text denotes that
number (`Binary.ofDecimal_shortest`), and the text without exponents is read as a decimal of the
same value (`Decimal.read?_positionalText`).  Both together say that a number comes back from its
text (`Binary.read?_text`). -/

namespace PenFilter

open Float.Model UnpackedFloat

/-! ### The value of a decimal -/

namespace Decimal

def value (d : Decimal) : ℚ := d.coeff * 10 ^ d.exp

theorem value_of_coeff_eq_zero {d : Decimal} (h : d.coeff = 0) : d.value = 0 := by
  rw [value, h, Nat.cast_zero, zero_mul]

theorem ofDigits_append_replicate (ds : List Char) (k : Nat) :
    ofDigits (ds ++ List.replicate k '0') = ofDigits ds * 10 ^ k := by
  rw [ofDigits, Nat.ofDigitChars_append, Nat.ofDigitChars_replicate_zero, Nat.mul_comm, ofDigits]

/-- A list is what is kept when a character is cut off its end, and copies of this character. -/
theorem append_replicate_dropWhile (ds : List Char) (c : Char) :
    ∃ k, ds = (ds.reverse.dropWhile (· == c)).reverse ++ List.replicate k c := by
  have hsplit := congrArg List.reverse (ds.reverse.takeWhile_append_dropWhile (p := (· == c)))
  rw [List.reverse_append, List.reverse_reverse] at hsplit
  refine ⟨(ds.reverse.takeWhile (· == c)).length, ?_⟩
  have hcopies : (ds.reverse.takeWhile (· == c)).reverse =
      List.replicate (ds.reverse.takeWhile (· == c)).length c := by
    rw [List.eq_replicate_iff]
    refine ⟨List.length_reverse, fun d hd => ?_⟩
    have hsame := List.mem_takeWhile_imp (p := (· == c)) (List.mem_reverse.mp hd)
    exact beq_iff_eq.mp hsame
  rw [← hcopies, hsplit]

theorem value_normalize (d : Decimal) : d.normalize.value = d.value := by
  unfold normalize
  split
  · rename_i hzero
    rw [value_of_coeff_eq_zero hzero]
    exact value_of_coeff_eq_zero rfl
  · obtain ⟨k, hk⟩ := append_replicate_dropWhile (digits d.coeff) '0'
    dsimp only
    generalize ((digits d.coeff).reverse.dropWhile (· == '0')).reverse = kept at hk
    have hcoeff : d.coeff = ofDigits kept * 10 ^ k := by
      rw [← ofDigits_append_replicate, ← hk, ofDigits_digits]
    have hlength : (digits d.coeff).length - kept.length = k := by
      rw [hk, List.length_append, List.length_replicate]
      omega
    rw [hlength, value, value, hcoeff, zpow_add₀ (by norm_num), zpow_natCast]
    push_cast
    ring

theorem value_exact (m : Nat) (e : Int) : (exact m e).value = m * 2 ^ e := by
  cases e with
  | ofNat k =>
      rw [exact, value, Nat.shiftLeft_eq, Int.ofNat_eq_natCast, zpow_natCast, zpow_zero, mul_one]
      push_cast
      rfl
  | negSucc k =>
      have hten : (10 : ℚ) ^ (k + 1) = 2 ^ (k + 1) * 5 ^ (k + 1) := by
        rw [← mul_pow]
        norm_num
      have hfive : ((m * Nat.pow 5 (k + 1) : Nat) : ℚ) = m * 5 ^ (k + 1) := by
        rw [Nat.pow_eq]
        push_cast
        rfl
      rw [exact, value, zpow_negSucc, zpow_negSucc, hten, hfive]
      field_simp

end Decimal

/-! ### Reading is rounding -/

variable {fmt : Format}

theorem targetExponent_mono {a b : Int} (h : a ≤ b) :
    fmt.targetExponent a ≤ fmt.targetExponent b := by
  simp only [Format.targetExponent]
  omega

theorem mul_eq_nearest {m n : Nat} {hm : 0 < m <<< fmt.mantissaBits} (hn : 0 < n) :
    UnpackedFloat.mul fmt (.finite .positive (m <<< fmt.mantissaBits) (-fmt.mantissaBits) hm)
        (.finite .positive n 0 hn) =
      nearest fmt .positive (m * n) := by
  have hm' : 0 < m := by
    rw [Nat.shiftLeft_eq] at hm
    exact Nat.pos_of_mul_pos_right hm
  have hone : (1 : ℚ) ≤ m * n := by exact_mod_cast Nat.mul_pos hm' hn
  apply roundWithAccuracy_eq_nearest .positive (by linarith)
  · have hsame : (m : ℚ) * n / 2 ^ (-(fmt.mantissaBits : Int) + 0) =
        (m <<< fmt.mantissaBits * n : Nat) := by
      rw [add_zero, zpow_neg, zpow_natCast, Nat.shiftLeft_eq]
      push_cast
      field_simp
    rw [hsame]
    exact Represents.exact _
  · have hlog : 0 ≤ Int.log 2 ((m : ℚ) * n) := by
      rw [← Int.zpow_le_iff_le_log Nat.one_lt_two (by linarith), zpow_zero]
      exact hone
    simp only [Format.targetExponent]
    omega

theorem div_eq_nearest {m n : Nat} {hm : 0 < m} (hn : 0 < n) :
    UnpackedFloat.div fmt (.finite .positive m 0 hm) (.finite .positive n 0 hn) =
      nearest fmt .positive (m / n) := by
  have hm' : (0 : ℚ) < m := Nat.cast_pos.mpr hm
  have hn' : (0 : ℚ) < n := Nat.cast_pos.mpr hn
  have hlog : totalExponent m 0 - totalExponent n 0 ≤ Int.log 2 ((m : ℚ) / n) + 1 := by
    have hlower : (2 : ℚ) ^ m.log2 ≤ m := by exact_mod_cast Nat.log2_self_le hm.ne'
    have hupper : (n : ℚ) < 2 ^ (n.log2 + 1) := by exact_mod_cast Nat.lt_log2_self
    have hpower : (2 : ℚ) ^ ((m.log2 : Int) - (n.log2 + 1 : Nat)) ≤ m / n := by
      rw [zpow_sub₀ (by norm_num), zpow_natCast, zpow_natCast]
      gcongr
    have hle : (m.log2 : Int) - (n.log2 + 1 : Nat) ≤ Int.log 2 ((m : ℚ) / n) := by
      rw [← Int.zpow_le_iff_le_log Nat.one_lt_two (div_pos hm' hn'), Nat.cast_ofNat]
      exact hpower
    simp only [totalExponent]
    omega
  have htarget : fmt.targetExponent (totalExponent m 0 - totalExponent n 0) ≤
      fmt.targetExponent (Int.log 2 ((m : ℚ) / n) + 1) := targetExponent_mono hlog
  simp only [UnpackedFloat.div, divCore]
  generalize fmt.targetExponent (totalExponent m 0 - totalExponent n 0) = t at htarget
  apply roundWithAccuracy_eq_nearest .positive (by positivity)
  · -- the exponent of the quotient is not positive, and the mantissa is shifted by as much
    obtain ⟨k, hk⟩ : ∃ k : Nat, min (0 - 0) t = -(k : Int) :=
      ⟨(-min 0 t).toNat, by omega⟩
    have hshift : (0 - 0 - -(k : Int)).toNat = k := by omega
    rw [hk, hshift]
    have hsame : (m : ℚ) / n / 2 ^ (-(k : Int)) = (m <<< k : Nat) / n := by
      rw [zpow_neg, zpow_natCast, Nat.shiftLeft_eq]
      push_cast
      field_simp
    rw [hsame]
    exact Represents.fraction _ hn
  · omega

theorem ofScientific_eq_nearest {m : Nat} {e : Int} (hm : 0 < m) (hhigh : e ≤ 2 ^ fmt.exponentBits)
    (hlow : -((2 ^ fmt.exponentBits : Int) + m.log2) ≤ e) :
    UnpackedFloat.ofScientific fmt m e = nearest fmt .positive (Decimal.value ⟨m, e⟩) := by
  rw [UnpackedFloat.ofScientific, dif_neg hm.ne', if_neg (by omega), if_neg (by omega)]
  split
  · rename_i he
    have hvalue : Decimal.value ⟨m, e⟩ = m * (10 ^ e.toNat : Nat) := by
      rw [Decimal.value, ← Int.toNat_of_nonneg he, zpow_natCast, Int.toNat_natCast]
      push_cast
      rfl
    rw [hvalue, mul_eq_nearest]
  · rename_i he
    have hvalue : Decimal.value ⟨m, e⟩ = m / (10 ^ (-e).toNat : Nat) := by
      obtain ⟨k, rfl⟩ : ∃ k : Nat, e = -(k : Int) := ⟨(-e).toNat, by omega⟩
      rw [Decimal.value, neg_neg, Int.toNat_natCast, zpow_neg, zpow_natCast, div_eq_mul_inv]
      push_cast
      rfl
    rw [hvalue, div_eq_nearest]

/-- An exponent above the limit makes a number that is too large for the format. -/
theorem large_of_limit {m : Nat} {e : Int} (hm : 0 < m) (he : 2 ^ fmt.exponentBits < e) :
    (2 : ℚ) ^ (fmt.exponentBias + 1) ≤ Decimal.value ⟨m, e⟩ := by
  have hbias : fmt.exponentBias + 1 ≤ 2 ^ fmt.exponentBits := by
    have hpos := Nat.two_pow_pos (fmt.exponentBits - 1)
    have hle : 2 ^ (fmt.exponentBits - 1) ≤ 2 ^ fmt.exponentBits :=
      Nat.pow_le_pow_right Nat.two_pos (Nat.sub_le _ 1)
    rw [Format.exponentBias]
    omega
  have hcast : ((2 ^ fmt.exponentBits : Nat) : Int) = 2 ^ fmt.exponentBits := Nat.cast_pow 2 _
  have hone : (1 : ℚ) ≤ m := by exact_mod_cast hm
  have hpositive : 0 ≤ e := by omega
  calc (2 : ℚ) ^ (fmt.exponentBias + 1) = 2 ^ ((fmt.exponentBias + 1 : Nat) : Int) := by
        rw [zpow_natCast]
    _ ≤ 2 ^ e := zpow_le_zpow_right₀ (by norm_num) (by omega)
    _ ≤ 10 ^ e := zpow_le_zpow_left₀ hpositive (by norm_num) (by norm_num)
    _ ≤ m * 10 ^ e := le_mul_of_one_le_left (by positivity) hone

/-- An exponent below the limit makes a number that is less than half of the smallest one. -/
theorem small_of_limit (hfmt : fmt.mantissaBits ≤ 2 ^ fmt.exponentBits) {m : Nat} {e : Int}
    (he : e < -((2 ^ fmt.exponentBits : Int) + m.log2)) :
    Decimal.value ⟨m, e⟩ < 2 ^ (fmt.minExponent - 1) := by
  have hupper : (m : ℚ) < 2 ^ ((m.log2 + 1 : Nat) : Int) := by
    rw [zpow_natCast]
    exact_mod_cast Nat.lt_log2_self
  have hcast : ((2 ^ fmt.exponentBits : Nat) : Int) = 2 ^ fmt.exponentBits := Nat.cast_pow 2 _
  obtain ⟨k, rfl⟩ : ∃ k : Nat, e = -(k : Int) := ⟨(-e).toNat, by omega⟩
  have hten : (10 : ℚ) ^ (-(k : Int)) ≤ 2 ^ (-((3 * k : Nat) : Int)) := by
    rw [zpow_neg, zpow_neg, zpow_natCast, zpow_natCast, pow_mul]
    gcongr
    norm_num
  calc (m : ℚ) * 10 ^ (-(k : Int)) < 2 ^ ((m.log2 + 1 : Nat) : Int) * 10 ^ (-(k : Int)) :=
        mul_lt_mul_of_pos_right hupper (by positivity)
    _ ≤ 2 ^ ((m.log2 + 1 : Nat) : Int) * 2 ^ (-((3 * k : Nat) : Int)) := by gcongr
    _ = 2 ^ ((m.log2 + 1 : Nat) + -((3 * k : Nat) : Int)) := (zpow_add₀ (by norm_num) _ _).symm
    _ ≤ 2 ^ (fmt.minExponent - 1) := by
        apply zpow_le_zpow_right₀ (by norm_num)
        have hhalf : (2 : Int) ^ (fmt.exponentBits - 1) ≤ 2 ^ fmt.exponentBits :=
          pow_le_pow_right₀ (by norm_num) (Nat.sub_le _ 1)
        simp only [Format.minExponent]
        omega

/-- **A decimal is read as the nearest number**, or as an infinity if it is too large for the
format. -/
theorem Binary.ofDecimal_eq_pack_nearest (hfmt : fmt.mantissaBits ≤ 2 ^ fmt.exponentBits)
    (d : Decimal) : ofDecimal fmt d = pack fmt (nearest fmt .positive d.value) := by
  obtain ⟨m, e⟩ := d
  rw [ofDecimal]
  rcases Nat.eq_zero_or_pos m with rfl | hm
  · rw [Decimal.value_of_coeff_eq_zero rfl, nearest_zero]
    rfl
  have hpos : 0 < Decimal.value ⟨m, e⟩ := by
    have hm' : (0 : ℚ) < m := Nat.cast_pos.mpr hm
    rw [Decimal.value]
    positivity
  dsimp only
  by_cases hhigh : 2 ^ fmt.exponentBits < e
  · rw [pack_nearest_of_large hpos (large_of_limit hm hhigh)]
    simp only [UnpackedFloat.ofScientific, dif_neg hm.ne', if_pos hhigh]
  · by_cases hlow : e < -((2 ^ fmt.exponentBits : Int) + m.log2)
    · rw [nearest_of_small hpos (small_of_limit hfmt hlow)]
      simp only [UnpackedFloat.ofScientific, dif_neg hm.ne', if_neg hhigh, if_pos hlow]
    · rw [ofScientific_eq_nearest hm (by omega) (by omega)]

namespace Binary

theorem unsigned_ofDecimal (hfmt : fmt.mantissaBits ≤ 2 ^ fmt.exponentBits) (d : Decimal) :
    (ofDecimal fmt d).Unsigned := by
  rw [ofDecimal_eq_pack_nearest hfmt, nearest]
  split_ifs
  · exact unsigned_pack_zero
  · exact unsigned_pack_finite _
  · exact unsigned_pack_finite _

theorem ofDecimal_eq_of_value_eq (hfmt : fmt.mantissaBits ≤ 2 ^ fmt.exponentBits) {c d : Decimal}
    (h : c.value = d.value) : ofDecimal fmt c = ofDecimal fmt d := by
  rw [ofDecimal_eq_pack_nearest hfmt, ofDecimal_eq_pack_nearest hfmt, h]

/-- The decimal that is written for a number denotes it, also when the search for a shorter one
finds none. -/
theorem ofDecimal_shortest (hfmt : fmt.mantissaBits ≤ 2 ^ fmt.exponentBits)
    (hexponent : 2 ≤ fmt.exponentBits) {x : Binary fmt} {m : Nat} {e : Int} {hm : 0 < m}
    (h : x.unpack = .finite .positive m e hm) (tie : Tie) :
    ofDecimal fmt (x.shortest tie m e) = x := by
  rw [shortest, ofDecimal_eq_of_value_eq hfmt (Decimal.value_normalize _)]
  cases hfound : (List.range (maxDigits fmt)).findSome? fun n =>
      x.shortestOfLength tie (Ratio.ofBinary m e) (n + 1) with
  | some d =>
      obtain ⟨n, -, hd⟩ := List.exists_of_findSome?_eq_some hfound
      exact ofDecimal_of_shortestOfLength hd
  | none =>
      have hnumber : x.isNaN = false := by rw [isNaN, h]; rfl
      rw [Option.getD_none, ofDecimal_eq_pack_nearest hfmt, Decimal.value_exact,
        nearest_of_representable (representable_of_unpack hexponent h), ← h,
        pack_unpack_of_isNaN_eq_false hexponent hnumber]

end Binary

/-! ### Digits with a point -/

namespace Decimal

theorem isDigit_of_mem_digits {n : Nat} {c : Char} (h : c ∈ digits n) : c.isDigit :=
  Nat.isDigit_of_mem_toDigits (by decide) (by decide) h

theorem read?_whole {ws rest : List Char} (hws : ∀ c ∈ ws, c.isDigit)
    (hrest : ∀ c ∈ rest.head?, c.isDigit = false ∧ c ≠ '.') :
    read? (ws ++ rest) =
      if ws = [] then none else (exponent? rest).map fun e => ⟨ofDigits ws, e⟩ := by
  obtain ⟨hwhole, hdrop⟩ := span_append hws fun c hc => (hrest c hc).1
  cases rest with
  | nil =>
      rw [List.append_nil] at hwhole hdrop ⊢
      simp [read?, hwhole, hdrop]
  | cons c rest =>
      have hpoint : c ≠ '.' := (hrest c rfl).2
      simp [read?, hwhole, hdrop, hpoint]

theorem read?_fraction {ws fs rest : List Char} (hws : ∀ c ∈ ws, c.isDigit)
    (hfs : ∀ c ∈ fs, c.isDigit) (hrest : ∀ c ∈ rest.head?, c.isDigit = false) :
    read? (ws ++ '.' :: (fs ++ rest)) =
      if ws = [] ∧ fs = [] then none
      else (exponent? rest).map fun e => ⟨ofDigits (ws ++ fs), e - fs.length⟩ := by
  have hpoint : ∀ c ∈ ('.' :: (fs ++ rest)).head?, c.isDigit = false := by
    rintro _ ⟨⟩
    rfl
  obtain ⟨hwhole, hdrop⟩ := span_append hws hpoint
  obtain ⟨hfraction, hbehind⟩ := span_append hfs hrest
  simp [read?, hwhole, hdrop, hfraction, hbehind]

theorem read?_digits {ds : List Char} (hds : ∀ c ∈ ds, c.isDigit) (hne : ds ≠ []) :
    read? ds = some ⟨ofDigits ds, 0⟩ := by
  have hread := @read?_whole ds [] hds nofun
  rwa [List.append_nil, if_neg hne] at hread

theorem read?_point {ws fs : List Char} (hws : ∀ c ∈ ws, c.isDigit) (hfs : ∀ c ∈ fs, c.isDigit)
    (hne : ws ≠ []) : read? (ws ++ '.' :: fs) = some ⟨ofDigits (ws ++ fs), -fs.length⟩ := by
  have hread := @read?_fraction ws fs [] hws hfs nofun
  rw [List.append_nil, if_neg fun h => hne h.1] at hread
  simpa [exponent?] using hread

theorem isDigit_of_mem_replicate {k : Nat} {c : Char} (h : c ∈ List.replicate k '0') :
    c.isDigit := by
  rw [List.eq_of_mem_replicate h]
  rfl

theorem ofDigits_replicate_append (k : Nat) (ds : List Char) :
    ofDigits (List.replicate k '0' ++ ds) = ofDigits ds := by
  rw [ofDigits, Nat.ofDigitChars_append, Nat.ofDigitChars_replicate_zero, Nat.mul_zero, ofDigits]

/-- Text with a point is digits before and after it, with zeros in front only where none of the
digits comes before the point. -/
theorem exists_point (keepsPoint : Bool) (coeff k : Nat) : ∃ j whole fraction,
    Layout.positionalText keepsPoint ⟨coeff, .negSucc k⟩ = whole ++ '.' :: fraction ∧
      whole ++ fraction = List.replicate j '0' ++ digits coeff ∧
      (∀ c ∈ whole ++ fraction, c.isDigit) ∧ whole ≠ [] ∧ fraction.length = k + 1 ∧
      (j = 0 ∨ whole = ['0']) := by
  let j := k + 1 + 1 - (digits coeff).length
  let padded := List.replicate j '0' ++ digits coeff
  have hlength : padded.length = j + (digits coeff).length := by
    rw [List.length_append, List.length_replicate]
  refine ⟨j, padded.take (padded.length - (k + 1)), padded.drop (padded.length - (k + 1)), rfl,
    List.take_append_drop _ _, ?_, ?_, ?_, ?_⟩
  · intro c hc
    rw [List.take_append_drop] at hc
    rcases List.mem_append.mp hc with hc | hc
    · exact isDigit_of_mem_replicate hc
    · exact isDigit_of_mem_digits hc
  · rw [← List.length_pos_iff, List.length_take]
    omega
  · rw [List.length_drop]
    omega
  · rcases Nat.eq_zero_or_pos j with hnone | hzeros
    · exact .inl hnone
    · have hone : padded.length - (k + 1) = 1 := by omega
      obtain ⟨i, hi⟩ := Nat.exists_eq_succ_of_ne_zero hzeros.ne'
      rw [hone]
      exact .inr (by simp [padded, hi, List.replicate_succ])

/-- Text without an exponent is digits, with a point at most, and is read as a decimal of the same
value. -/
theorem read?_positionalText (d : Decimal) :
    (∀ c ∈ Layout.positionalText false d, c.isDigit ∨ c = '.') ∧
      Layout.positionalText false d ≠ [] ∧
      ∃ r, read? (Layout.positionalText false d) = some r ∧ r.value = d.value := by
  obtain ⟨coeff, exp⟩ := d
  cases exp with
  | ofNat k =>
      have htext : Layout.positionalText false ⟨coeff, Int.ofNat k⟩ =
          digits coeff ++ List.replicate k '0' := by
        simp [Layout.positionalText]
      have hdigits : ∀ c ∈ digits coeff ++ List.replicate k '0', c.isDigit := by
        intro c hc
        rcases List.mem_append.mp hc with hc | hc
        · exact isDigit_of_mem_digits hc
        · exact isDigit_of_mem_replicate hc
      have hne : digits coeff ++ List.replicate k '0' ≠ [] := by simp [digits_ne_nil]
      rw [htext]
      refine ⟨fun c hc => .inl (hdigits c hc), hne, _, read?_digits hdigits hne, ?_⟩
      rw [value, value, ofDigits_append_replicate, ofDigits_digits, Int.ofNat_eq_natCast,
        zpow_natCast, zpow_zero, mul_one]
      push_cast
      rfl
  | negSucc k =>
      obtain ⟨j, whole, fraction, htext, hsplit, hdigits, hne, hplaces, -⟩ :=
        exists_point false coeff k
      rw [List.forall_mem_append] at hdigits
      rw [htext]
      refine ⟨?_, by simp, _, read?_point hdigits.1 hdigits.2 hne, ?_⟩
      · intro c hc
        rcases List.mem_append.mp hc with hc | hc
        · exact .inl (hdigits.1 c hc)
        · rcases List.mem_cons.mp hc with rfl | hc
          · exact .inr rfl
          · exact .inl (hdigits.2 c hc)
      · rw [value, value, hsplit, ofDigits_replicate_append, ofDigits_digits, hplaces]
        rfl

end Decimal

namespace Binary

theorem exists_text_eq_positionalText (hfmt : fmt.mantissaBits ≤ 2 ^ fmt.exponentBits)
    (hexponent : 2 ≤ fmt.exponentBits) {x : Binary fmt} (hfinite : x.isFinite)
    (hsign : x.isNegative = false) :
    ∃ d, (x.text .plain).toList = Layout.positionalText false d ∧ ofDecimal fmt d = x := by
  have hplain : ∀ d, Layout.plain.decimalText d = Layout.positionalText false d := fun _ => rfl
  rcases unpack_cases hexponent x with hx | hx | hx | ⟨m, e, hrep, hx⟩
  · rw [isFinite, hx] at hfinite
    cases hfinite
  · rw [isFinite, hx] at hfinite
    cases hfinite
  · have hnan : x.isNaN = false := by rw [isNaN, hx]; rfl
    have hinf : x.isInfinite = false := by rw [isInfinite, hx]; rfl
    refine ⟨⟨0, 0⟩, ?_, ?_⟩
    · rw [text, String.toList_ofList, magnitudeText, hx]
      simp [signed, hnan, hinf, hsign, hplain]
    · rw [ofDecimal_eq_pack_nearest hfmt, Decimal.value_of_coeff_eq_zero rfl, nearest_zero,
        ← pack_unpack_of_isNaN_eq_false hexponent hnan, hx, hsign]
      rfl
  · have hnan : x.isNaN = false := by rw [isNaN, hx]; rfl
    have hinf : x.isInfinite = false := by rw [isInfinite, hx]; rfl
    have habs : x.abs = x := by simp [abs, hsign]
    rw [hsign] at hx
    refine ⟨x.shortest .up m e, ?_, ofDecimal_shortest hfmt hexponent hx .up⟩
    rw [text, String.toList_ofList, magnitudeText, hx]
    simp only [signed, hnan, hinf, hsign, hplain, habs]
    rfl

/-- **A number comes back from its text.**  The text of a finite number without a minus sign is
digits, with a point at most, and denotes the number. -/
theorem read?_text (hfmt : fmt.mantissaBits ≤ 2 ^ fmt.exponentBits)
    (hexponent : 2 ≤ fmt.exponentBits) {x : Binary fmt} (hfinite : x.isFinite)
    (hsign : x.isNegative = false) :
    (∀ c ∈ (x.text .plain).toList, c.isDigit ∨ c = '.') ∧ (x.text .plain).toList ≠ [] ∧
      ∃ d, Decimal.read? (x.text .plain).toList = some d ∧ ofDecimal fmt d = x := by
  obtain ⟨d, htext, hd⟩ := exists_text_eq_positionalText hfmt hexponent hfinite hsign
  obtain ⟨hchars, hne, r, hread, hvalue⟩ := Decimal.read?_positionalText d
  rw [htext]
  exact ⟨hchars, hne, r, hread, (ofDecimal_eq_of_value_eq hfmt hvalue).trans hd⟩

end Binary

end PenFilter
