import PenFilter.Json.Number
import PenFilter.Json.Reader
import PenFilter.Proofs.Number.Decimal
import PenFilter.Proofs.Text

/-! # Number literals in JSON

A literal has a whole part, and may have a minus sign, a fraction and an exponent (`Json.Literal`).
It is read to its end when what follows cannot go on with it (`Json.Literal.numberLiteral?_append`).
The digits of a natural number are a literal, and so is the text of every finite number
(`Json.literal_text`), in either of its two forms.  Digits stand for the number that they spell. -/

namespace PenFilter

open Float.Model

namespace Json

/-! ### The parts of a literal -/

structure Digits (ds : List Char) : Prop where
  ne_nil : ds ≠ []
  isDigit : ∀ c ∈ ds, c.isDigit

/-- The text does not go on with a digit. -/
def NoDigit (cs : List Char) : Prop := ∀ c ∈ cs.head?, c.isDigit = false

/-- The text does not go on with a part of a number. -/
def EndsNumber (cs : List Char) : Prop :=
  ∀ c ∈ cs.head?, c.isDigit = false ∧ c ≠ '.' ∧ c ≠ 'e' ∧ c ≠ 'E'

inductive Whole : List Char → Prop
  | zero : Whole ['0']
  | digits {ds : List Char} : Digits ds → ds.head? ≠ some '0' → Whole ds

inductive Fraction : List Char → Prop
  | none : Fraction []
  | digits {ds : List Char} : Digits ds → Fraction ('.' :: ds)

inductive Exponent : List Char → Prop
  | none : Exponent []
  | digits {c : Char} {sign ds : List Char} :
    c = 'e' ∨ c = 'E' → sign = [] ∨ sign = ['+'] ∨ sign = ['-'] → Digits ds →
    Exponent (c :: sign ++ ds)

inductive Magnitude : List Char → Prop
  | parts {ws fs es : List Char} : Whole ws → Fraction fs → Exponent es → Magnitude (ws ++ fs ++ es)

inductive Literal : List Char → Prop
  | plus {cs : List Char} : Magnitude cs → Literal cs
  | minus {cs : List Char} : Magnitude cs → Literal ('-' :: cs)

variable {ds ws fs es cs rest : List Char}

theorem EndsNumber.noDigit (h : EndsNumber rest) : NoDigit rest := fun c hc => (h c hc).1

theorem noDigit_cons {c : Char} (h : c.isDigit = false) (cs : List Char) : NoDigit (c :: cs) := by
  rintro _ ⟨⟩
  exact h

theorem Whole.isDigits (h : Whole ws) : Digits ws := by
  cases h with
  | zero => exact ⟨by simp, by simp⟩
  | digits h _ => exact h

theorem Digits.head? (h : Digits ds) : ∃ c, ds.head? = some c ∧ c.isDigit := by
  obtain ⟨c, cs, rfl⟩ := List.exists_cons_of_ne_nil h.ne_nil
  exact ⟨c, rfl, h.isDigit c List.mem_cons_self⟩

/-! ### Reading a literal -/

theorem digits?_append (hds : Digits ds) (hrest : NoDigit rest) :
    digits? (ds ++ rest) = some (ds, rest) := by
  obtain ⟨htake, hdrop⟩ := span_append hds.isDigit hrest
  simp only [digits?, htake, hdrop]
  simp [hds.ne_nil]

theorem whole?_append (h : Whole ws) (hrest : NoDigit rest) :
    whole? (ws ++ rest) = some (ws, rest) := by
  cases h with
  | zero => rfl
  | digits hds hhead =>
      obtain ⟨c, cs, rfl⟩ := List.exists_cons_of_ne_nil hds.ne_nil
      have hc : c ≠ '0' := by simpa using hhead
      rw [← digits?_append hds hrest, List.cons_append]
      unfold whole?
      split
      · rename_i heq
        exact absurd (List.cons.inj heq).1 hc
      · rfl

theorem fraction?_append (h : Fraction fs) (hrest : NoDigit rest)
    (hpoint : rest.head? ≠ some '.') : fraction? (fs ++ rest) = some (fs, rest) := by
  cases h with
  | none =>
      rw [List.nil_append]
      unfold fraction?
      split
      · simp at hpoint
      · rfl
  | digits hds =>
      rw [List.cons_append, fraction?, digits?_append hds hrest]
      rfl

theorem exponent?_append (h : Exponent es) (hrest : EndsNumber rest) :
    exponent? (es ++ rest) = some (es, rest) := by
  cases h with
  | none =>
      cases rest with
      | nil => rfl
      | cons c rest =>
          obtain ⟨-, -, he, hE⟩ := hrest c rfl
          simp [exponent?, he, hE]
  | @digits c sign ds hc hsign hds =>
      have hletter : (c == 'e' || c == 'E') = true := by simpa using hc
      rcases hsign with rfl | rfl | rfl
      · -- the first digit is no sign
        obtain ⟨d, ds', rfl⟩ := List.exists_cons_of_ne_nil hds.ne_nil
        have hd : d.isDigit := hds.isDigit d List.mem_cons_self
        have hplus : d ≠ '+' := by rintro rfl; cases hd
        have hminus : d ≠ '-' := by rintro rfl; cases hd
        have hread := digits?_append hds hrest.noDigit
        simp only [List.cons_append, List.nil_append] at hread ⊢
        rw [exponent?, if_pos hletter, hread]
        · rfl
        · exact fun _ hcons => hplus (List.cons.inj hcons).1
        · exact fun _ hcons => hminus (List.cons.inj hcons).1
      · simp [exponent?, hletter, digits?_append hds hrest.noDigit]
      · simp [exponent?, hletter, digits?_append hds hrest.noDigit]

/-- An exponent, or what follows the number, does not go on with its fraction. -/
theorem Exponent.head? (h : Exponent es) (hrest : EndsNumber rest) :
    NoDigit (es ++ rest) ∧ (es ++ rest).head? ≠ some '.' := by
  cases h with
  | none =>
      refine ⟨hrest.noDigit, fun hpoint => ?_⟩
      exact (hrest '.' hpoint).2.1 rfl
  | digits hc _ _ => rcases hc with rfl | rfl <;> exact ⟨noDigit_cons rfl _, by simp⟩

theorem Magnitude.parts? (h : Magnitude cs) (hrest : EndsNumber rest) (sign : List Char) :
    (do
      let (whole, cs) ← whole? (cs ++ rest)
      let (fraction, cs) ← fraction? cs
      let (exponent, cs) ← exponent? cs
      some (sign ++ whole ++ fraction ++ exponent, cs)) = some (sign ++ cs, rest) := by
  cases h with
  | @parts ws fs es hws hfs hes =>
      obtain ⟨hdigit, hpoint⟩ := hes.head? hrest
      have hnext : NoDigit (fs ++ (es ++ rest)) := by
        cases hfs with
        | none => exact hdigit
        | digits _ => exact noDigit_cons rfl _
      rw [List.append_assoc, List.append_assoc, whole?_append hws hnext]
      simp [fraction?_append hfs hdigit hpoint, exponent?_append hes hrest]

theorem Magnitude.head? (h : Magnitude cs) : ∃ c, cs.head? = some c ∧ c.isDigit := by
  cases h with
  | parts hws _ _ =>
      obtain ⟨c, hc, hdigit⟩ := hws.isDigits.head?
      exact ⟨c, by simp [List.head?_append, hc], hdigit⟩

/-- A literal is read to its end. -/
theorem Literal.numberLiteral?_append (h : Literal cs) (hrest : EndsNumber rest) :
    numberLiteral? (cs ++ rest) = some (cs, rest) := by
  cases h with
  | minus h => exact h.parts? hrest ['-']
  | plus h =>
      obtain ⟨c, hc, hdigit⟩ := h.head?
      obtain ⟨cs', rfl⟩ := List.head?_eq_some_iff.mp hc
      have hminus : c ≠ '-' := by rintro rfl; cases hdigit
      rw [numberLiteral?]
      · exact h.parts? hrest []
      · exact fun _ hcons => hminus (List.cons.inj hcons).1

theorem Literal.head? (h : Literal cs) : ∃ c, cs.head? = some c ∧ (c = '-' ∨ c.isDigit) := by
  cases h with
  | minus _ => exact ⟨'-', rfl, .inl rfl⟩
  | plus h =>
      obtain ⟨c, hc, hdigit⟩ := h.head?
      exact ⟨c, hc, .inr hdigit⟩

theorem Literal.newline_notMem (h : Literal cs) : '\n' ∉ cs := by
  have hdigits : ∀ {ds}, Digits ds → '\n' ∉ ds := fun hds hmem => by cases hds.isDigit _ hmem
  have hmagnitude : ∀ {cs}, Magnitude cs → '\n' ∉ cs := by
    rintro _ ⟨hws, hfs, hes⟩
    simp only [List.mem_append, not_or]
    refine ⟨⟨hdigits hws.isDigits, ?_⟩, ?_⟩
    · cases hfs with
      | none => exact List.not_mem_nil
      | digits hds => simp [hdigits hds]
    · cases hes with
      | none => exact List.not_mem_nil
      | digits hc hsign hds =>
          rcases hc with rfl | rfl <;> rcases hsign with rfl | rfl | rfl <;> simp [hdigits hds]
  cases h with
  | plus h => exact hmagnitude h
  | minus h => simp [hmagnitude h]

/-! ### The texts of numbers -/

theorem digits_digits (n : Nat) : Digits (Decimal.digits n) :=
  ⟨Decimal.digits_ne_nil n, fun _ => Decimal.isDigit_of_mem_digits⟩

theorem Digits.append {more : List Char} (h : Digits ds) (hmore : ∀ c ∈ more, c.isDigit) :
    Digits (ds ++ more) where
  ne_nil := by simp [h.ne_nil]
  isDigit c hc := (List.mem_append.mp hc).elim (h.isDigit c) (hmore c)

theorem head?_digits_ne {n : Nat} (hn : n ≠ 0) : (Decimal.digits n).head? ≠ some '0' := by
  induction n using Nat.strongRecOn with
  | ind n ih =>
      rw [Decimal.digits, Nat.toDigits_eq_if (by decide)]
      split
      · rename_i hlt
        intro hhead
        have hdigit : n.digitChar = '0' := Option.some.inj hhead
        interval_cases n <;> simp_all [Nat.digitChar]
      · rename_i hge
        have hquotient : n / 10 ≠ 0 := by omega
        have hhead := ih (n / 10) (by omega) hquotient
        rwa [List.head?_append_of_ne_nil _ Nat.toDigits_ne_nil]

theorem whole_digits (n : Nat) : Whole (Decimal.digits n) := by
  by_cases hn : n = 0
  · rw [hn]
    exact .zero
  · exact .digits (digits_digits n) (head?_digits_ne hn)

theorem Magnitude.of_parts (hws : Whole ws) (hfs : Fraction fs) : Magnitude (ws ++ fs) := by
  have h := Magnitude.parts hws hfs .none
  rwa [List.append_nil] at h

theorem literal_digits (n : Nat) : Literal (Decimal.digits n) := by
  have h := Magnitude.of_parts (whole_digits n) .none
  rw [List.append_nil] at h
  exact .plus h

/-- Digits with a point are the magnitude of a literal unless zeros follow a zero. -/
theorem magnitude_positionalText {d : Decimal} (hd : d.coeff = 0 → d.exp = 0) :
    Magnitude (Layout.positionalText true d) := by
  obtain ⟨coeff, exp⟩ := d
  cases exp with
  | ofNat k =>
      have hwhole : Whole (Decimal.digits coeff ++ List.replicate k '0') := by
        by_cases hzero : coeff = 0
        · obtain rfl : k = 0 := Int.ofNat.inj (hd hzero)
          rw [List.replicate_zero, List.append_nil]
          exact whole_digits coeff
        · refine .digits ((digits_digits coeff).append
            fun _ => Decimal.isDigit_of_mem_replicate) ?_
          rw [List.head?_append_of_ne_nil _ (Decimal.digits_ne_nil coeff)]
          exact head?_digits_ne hzero
      have hfraction : Digits ['0'] := ⟨by simp, by simp⟩
      exact .of_parts hwhole (.digits hfraction)
  | negSucc k =>
      obtain ⟨j, whole, fraction, htext, hsplit, hdigits, hne, hplaces, hzeros⟩ :=
        Decimal.exists_point true coeff k
      rw [List.forall_mem_append] at hdigits
      have hfraction : Digits fraction := by
        refine ⟨?_, hdigits.2⟩
        rw [← List.length_pos_iff, hplaces]
        exact Nat.succ_pos k
      have hwhole : Whole whole := by
        rcases hzeros with rfl | rfl
        · refine .digits ⟨hne, hdigits.1⟩ ?_
          rw [List.replicate_zero, List.nil_append] at hsplit
          -- there are digits on both sides of the point, and zero has one only
          have hpositive : coeff ≠ 0 := by
            rintro rfl
            have hlength := congrArg List.length hsplit
            have hpos := List.length_pos_iff.mpr hne
            rw [List.length_append, Decimal.digits, Nat.toDigits_zero, List.length_singleton]
              at hlength
            omega
          rw [← List.head?_append_of_ne_nil whole hne, hsplit]
          exact head?_digits_ne hpositive
        · exact .zero
      rw [htext]
      exact .of_parts hwhole (.digits hfraction)

theorem magnitude_exponentText (d : Decimal) : Magnitude (Layout.exponentText true d) := by
  have hexponent : Exponent ('e' :: (if d.leadingExp < 0 then ['-'] else ['+']) ++
      Decimal.digits d.leadingExp.natAbs) := by
    refine .digits (.inl rfl) ?_ (digits_digits _)
    split
    · exact .inr (.inr rfl)
    · exact .inr (.inl rfl)
  have hwhole : ∀ {c}, c.isDigit → Whole [c] := by
    intro c hc
    by_cases hzero : c = '0'
    · rw [hzero]
      exact .zero
    · exact .digits ⟨by simp, by simpa using hc⟩ (by simpa using hzero)
  obtain ⟨hne, hdigits⟩ := digits_digits d.coeff
  unfold Layout.exponentText
  generalize Decimal.digits d.coeff = ds at hne hdigits
  match ds with
  | [] => exact absurd rfl hne
  | [c] =>
      have h := Magnitude.parts (hwhole (hdigits c (by simp))) .none hexponent
      simpa using h
  | c :: c' :: cs =>
      have hfraction : Digits (c' :: cs) :=
        ⟨by simp, fun b hb => hdigits b (List.mem_cons_of_mem c hb)⟩
      have h := Magnitude.parts (hwhole (hdigits c (by simp))) (.digits hfraction) hexponent
      simpa using h

/-- A decimal in lowest terms has no zeros behind a zero. -/
theorem exp_normalize (d : Decimal) : d.normalize.coeff = 0 → d.normalize.exp = 0 := by
  intro h
  by_cases hzero : d.coeff = 0
  · simp [Decimal.normalize, hzero]
  · have hvalue := d.value_normalize
    rw [Decimal.value_of_coeff_eq_zero h, Decimal.value, eq_comm, mul_eq_zero] at hvalue
    rcases hvalue with hcoeff | hpower
    · exact absurd (Nat.cast_eq_zero.mp hcoeff) hzero
    · exact absurd hpower (zpow_ne_zero _ (by norm_num))

theorem magnitude_decimalText (fmt : Format) {d : Decimal} (hd : d.coeff = 0 → d.exp = 0) :
    Magnitude ((Layout.json fmt).decimalText d) := by
  unfold Layout.decimalText
  split
  · exact magnitude_positionalText hd
  · exact magnitude_exponentText d

theorem magnitude_magnitudeText {fmt : Format} (x : Binary fmt) :
    Magnitude (x.magnitudeText (.json fmt)) := by
  unfold Binary.magnitudeText
  split
  · exact magnitude_decimalText fmt (exp_normalize _)
  · exact magnitude_decimalText fmt fun _ => rfl

/-- The text of a finite number is a literal. -/
theorem literal_text {fmt : Format} {x : Binary fmt} (hfinite : x.isFinite) :
    Literal (x.text (.json fmt)).toList := by
  obtain ⟨hnan, hinf⟩ := Binary.isFinite_iff.mp hfinite
  rw [Binary.text, String.toList_ofList, Binary.signed]
  simp only [hnan, hinf, Bool.false_eq_true, if_false]
  split
  · exact .minus (magnitude_magnitudeText x)
  · exact .plus (magnitude_magnitudeText x)

/-! ### What digits stand for -/

namespace Numeric

theorem le_ofDigitChars (n : Nat) (ds : List Char) : n ≤ Nat.ofDigitChars 10 ds n := by
  rw [Nat.ofDigitChars_eq_ofDigitChars_zero]
  calc n ≤ 10 ^ ds.length * n := Nat.le_mul_of_pos_left n (Nat.pow_pos (by decide))
    _ ≤ _ := Nat.le_add_right _ _

theorem absorb_of_lt {n : Nat} {ds : List Char} (h : Nat.ofDigitChars 10 ds n < UInt64.size) :
    absorb n ds = (Nat.ofDigitChars 10 ds n, []) := by
  induction ds generalizing n with
  | nil => rfl
  | cons d ds ih =>
      rw [Nat.ofDigitChars_cons] at h ⊢
      have hfits : 10 * n + (d.toNat - '0'.toNat) < UInt64.size :=
        (le_ofDigitChars _ ds).trans_lt h
      rw [absorb]
      simp only [hfits, if_true]
      exact ih h

theorem ofLiteral?_digits {n : Nat} (h : n < UInt64.size) :
    ofLiteral? (Decimal.digits n) = some (.integer n) := by
  have hn : Nat.ofDigitChars 10 (Decimal.digits n) 0 = n := Decimal.ofDigits_digits n
  have habsorb : absorb 0 (Decimal.digits n) = (n, []) := by
    have hfits : Nat.ofDigitChars 10 (Decimal.digits n) 0 < UInt64.size := hn.symm ▸ h
    rw [absorb_of_lt hfits, hn]
  obtain ⟨hne, hdigits⟩ := digits_digits n
  have hsign : Decimal.sign? (Decimal.digits n) = (false, Decimal.digits n) := by
    unfold Decimal.sign?
    split
    · rename_i hminus
      cases hdigits '-' (by simp [hminus])
    · rename_i hplus
      cases hdigits '+' (by simp [hplus])
    · rfl
  have hwhole : (Decimal.digits n).takeWhile Char.isDigit = Decimal.digits n :=
    List.takeWhile_eq_self_iff.mpr hdigits
  have hrest : (Decimal.digits n).dropWhile Char.isDigit = [] :=
    List.dropWhile_eq_nil_iff.mpr hdigits
  simp [ofLiteral?, hsign, hwhole, hrest, habsorb]

end Numeric

end Json

end PenFilter
