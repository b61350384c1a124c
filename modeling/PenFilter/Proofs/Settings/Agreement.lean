import Mathlib.Algebra.Group.Nat.Defs
import Mathlib.Data.List.Basic
import PenFilter.Filter.Set

/-! # Settings that make the same filter

Two settings agree (`Settings.Agrees`) when they have the same variant, the same number of
samples where it matters and the same formula for each channel of the variant.  The hashed bytes
can be taken apart again: words have a fixed length, and a formula ends at the first byte `0xff`,
which no text contains.  Hence settings agree exactly when their hashed bytes are equal
(`Settings.hashInput_eq_iff`), and settings that agree are validated, hashed and compiled alike
(`Settings.Agrees.validate_eq`, `Settings.Agrees.fingerprint_eq`,
`Settings.Agrees.compile_eq`). -/

namespace PenFilter

/-! ### Words -/

theorem length_littleEndian (n : UInt64) : (littleEndian n).length = 8 := by
  simp [littleEndian]

theorem eq_of_bytes_eq {k m n : Nat} (hm : m < 256 ^ k) (hn : n < 256 ^ k)
    (h : ∀ i < k, m / 256 ^ i % 256 = n / 256 ^ i % 256) : m = n := by
  induction k generalizing m n with
  | zero =>
      rw [Nat.pow_zero] at hm hn
      omega
  | succ k ih =>
      have hrest : m / 256 = n / 256 := by
        rw [Nat.pow_succ] at hm hn
        apply ih
        · exact Nat.div_lt_of_lt_mul (Nat.mul_comm _ _ ▸ hm)
        · exact Nat.div_lt_of_lt_mul (Nat.mul_comm _ _ ▸ hn)
        · intro i hi
          rw [Nat.div_div_eq_div_mul, Nat.div_div_eq_div_mul, ← Nat.pow_succ']
          exact h (i + 1) (Nat.succ_lt_succ hi)
      have hlowest := h 0 (Nat.succ_pos k)
      rw [Nat.pow_zero, Nat.div_one, Nat.div_one] at hlowest
      omega

theorem littleEndian_injective : Function.Injective littleEndian := by
  intro a b h
  apply UInt64.toNat_inj.mp
  apply eq_of_bytes_eq (k := 8) a.toNat_lt b.toNat_lt
  intro i hi
  have hshift : 8 * i % 18446744073709551616 % 64 = 8 * i := by omega
  have hbyte := congrArg UInt8.toNat (List.map_inj_left.mp h i (List.mem_range.mpr hi))
  simpa [Nat.shiftRight_eq_div_pow, hshift, Nat.pow_mul] using hbyte

/-- A word can be cut off a sequence of bytes. -/
theorem littleEndian_append_inj {m n : UInt64} {rest more : List UInt8} :
    littleEndian m ++ rest = littleEndian n ++ more ↔ m = n ∧ rest = more := by
  constructor
  · intro h
    obtain ⟨hword, hrest⟩ :=
      List.append_inj h (by rw [length_littleEndian, length_littleEndian])
    exact ⟨littleEndian_injective hword, hrest⟩
  · rintro ⟨rfl, rfl⟩
    rfl

/-! ### Texts -/

theorem ff_ne_ofNat {n : Nat} (h : n < 255) : (0xff : UInt8) ≠ UInt8.ofNat n := by
  have hsize : n < UInt8.size := Nat.lt_trans h (by decide)
  rw [Ne, ← UInt8.toNat_inj, UInt8.toNat_ofNat_of_lt' hsize]
  exact fun heq => Nat.ne_of_gt h heq

theorem ff_notMem_utf8EncodeChar (c : Char) : 0xff ∉ String.utf8EncodeChar c := by
  fun_cases String.utf8EncodeChar c with
  | case1 v h =>
      rw [List.mem_singleton]
      exact ff_ne_ofNat (by omega)
  | case2 v h =>
      simp only [List.mem_cons, List.not_mem_nil, or_false, not_or]
      exact ⟨ff_ne_ofNat (by omega), ff_ne_ofNat (by omega)⟩
  | case3 v h =>
      simp only [List.mem_cons, List.not_mem_nil, or_false, not_or]
      exact ⟨ff_ne_ofNat (by omega), ff_ne_ofNat (by omega), ff_ne_ofNat (by omega)⟩
  | case4 v h =>
      simp only [List.mem_cons, List.not_mem_nil, or_false, not_or]
      exact ⟨ff_ne_ofNat (by omega), ff_ne_ofNat (by omega), ff_ne_ofNat (by omega),
        ff_ne_ofNat (by omega)⟩

/-- No text contains the byte that ends a formula. -/
theorem ff_notMem_toUTF8 (s : String) : 0xff ∉ s.toUTF8.data.toList := by
  rw [String.toUTF8_eq_toByteArray, ← String.utf8Encode_toList, List.utf8Encode,
    List.data_toByteArray]
  intro hmem
  obtain ⟨c, -, hc⟩ := List.mem_flatMap.mp hmem
  exact ff_notMem_utf8EncodeChar c hc

theorem toUTF8_toList_inj {s t : String} :
    s.toUTF8.data.toList = t.toUTF8.data.toList ↔ s = t := by
  rw [Array.toList_inj, ← ByteArray.ext_iff]
  exact String.toByteArray_inj

theorem toUTF8_append_inj {s t : String} {rest more : List UInt8} :
    s.toUTF8.data.toList ++ 0xff :: rest = t.toUTF8.data.toList ++ 0xff :: more ↔
      s = t ∧ rest = more := by
  constructor
  · intro h
    -- the first end byte stands right behind either text
    have hlength := congrArg (List.idxOf 0xff) h
    rw [List.idxOf_append_of_notMem (ff_notMem_toUTF8 s),
      List.idxOf_append_of_notMem (ff_notMem_toUTF8 t), List.idxOf_cons_self,
      List.idxOf_cons_self] at hlength
    obtain ⟨htext, hrest⟩ := List.append_inj h hlength
    exact ⟨toUTF8_toList_inj.mp htext, List.tail_eq_of_cons_eq hrest⟩
  · rintro ⟨rfl, rfl⟩
    rfl

/-! ### The hashed bytes -/

theorem VariantKind.eq_of_ofNat_index {k l : VariantKind}
    (h : UInt64.ofNat k.index = UInt64.ofNat l.index) : k = l := by
  cases k <;> cases l <;> first | rfl | exact absurd h (by decide)

namespace Settings

/-- Two settings agree on everything that their variant uses. -/
structure Agrees (a b : Settings) : Prop where
  variant : a.variant = b.variant
  samples : a.variant = .multiSample → a.samples = b.samples
  formulas : ∀ c ∈ a.filterVariant.channels, a.formula c = b.formula c

variable {a b : Settings}

theorem channelInput_append (s : Settings) (c : Channel) (rest : List UInt8) :
    s.channelInput c ++ rest = littleEndian (UInt64.ofNat c.index) ++
      ((s.formula c).toUTF8.data.toList ++ 0xff :: rest) := by
  simp [channelInput]

theorem flatMap_channelInput_inj {cs : List Channel} :
    cs.flatMap a.channelInput = cs.flatMap b.channelInput ↔
      ∀ c ∈ cs, a.formula c = b.formula c := by
  induction cs with
  | nil => simp
  | cons c cs ih =>
      rw [List.flatMap_cons, List.flatMap_cons, channelInput_append, channelInput_append,
        littleEndian_append_inj, toUTF8_append_inj, ih, List.forall_mem_cons]
      exact and_iff_right rfl

theorem channels_filterVariant_congr (h : a.variant = b.variant) :
    a.filterVariant.channels = b.filterVariant.channels := by
  rw [filterVariant, filterVariant, h]
  cases b.variant <;> rfl

theorem hashInput_append (s : Settings) :
    s.hashInput = littleEndian (UInt64.ofNat s.variant.index) ++
      ((if s.variant = .multiSample then littleEndian s.samples else []) ++
        s.filterVariant.channels.flatMap s.channelInput) := by
  rw [hashInput, List.append_assoc]

theorem variant_eq_of_hashInput (h : a.hashInput = b.hashInput) : a.variant = b.variant := by
  rw [hashInput_append, hashInput_append, littleEndian_append_inj] at h
  exact VariantKind.eq_of_ofNat_index h.1

/-- The hashed bytes hold what matters in settings, and nothing else. -/
theorem hashInput_eq_iff : a.hashInput = b.hashInput ↔ a.Agrees b := by
  by_cases hvariant : a.variant = b.variant
  · have hchannels := channels_filterVariant_congr hvariant
    rw [hashInput_append, hashInput_append, ← hchannels, ← hvariant, littleEndian_append_inj]
    by_cases hmulti : a.variant = .multiSample
    · rw [if_pos hmulti, if_pos hmulti, littleEndian_append_inj, flatMap_channelInput_inj]
      constructor
      · rintro ⟨-, hsamples, hformulas⟩
        exact ⟨hvariant, fun _ => hsamples, hformulas⟩
      · intro h
        exact ⟨rfl, h.samples hmulti, h.formulas⟩
    · rw [if_neg hmulti, if_neg hmulti, List.nil_append, List.nil_append,
        flatMap_channelInput_inj]
      constructor
      · rintro ⟨-, hformulas⟩
        exact ⟨hvariant, fun h => absurd h hmulti, hformulas⟩
      · intro h
        exact ⟨rfl, h.formulas⟩
  · constructor
    · intro h
      exact absurd (variant_eq_of_hashInput h) hvariant
    · intro h
      exact absurd h.variant hvariant

/-! ### Settings that agree -/

theorem Agrees.filterVariant_eq (h : a.Agrees b) : a.filterVariant = b.filterVariant := by
  have hvariant := h.variant
  have hsamples := h.samples
  rw [filterVariant, filterVariant, ← hvariant]
  cases hkind : a.variant with
  | basic | extended => rfl
  | multiSample => rw [hsamples hkind]

theorem Agrees.fingerprint_eq (h : a.Agrees b) : a.fingerprint = b.fingerprint := by
  rw [fingerprint, fingerprint, hashInput_eq_iff.mpr h]

theorem Agrees.validate_eq (h : a.Agrees b) : a.validate = b.validate := by
  have hsizes : a.filterVariant.channels.map a.oversized? =
      b.filterVariant.channels.map b.oversized? := by
    rw [← h.filterVariant_eq, List.map_inj_left]
    intro c hc
    rw [oversized?, oversized?, h.formulas c hc]
  have hfirst : a.filterVariant.channels.findSome? a.oversized? =
      b.filterVariant.channels.findSome? b.oversized? := by
    simpa [List.findSome?_map] using congrArg (List.findSome? id) hsizes
  by_cases hmulti : a.variant = .multiSample
  · rw [validate, validate, hfirst, h.variant, h.samples hmulti]
  · have hother : b.variant ≠ .multiSample := h.variant ▸ hmulti
    simp [validate, hfirst, hmulti, hother]

end Settings

theorem ChannelFilter.compileAll_congr (schema : Schema) {a b : Settings} {cs : List Channel}
    (h : ∀ c ∈ cs, a.formula c = b.formula c) :
    compileAll schema a cs = compileAll schema b cs := by
  induction cs with
  | nil => rfl
  | cons c cs ih =>
      rw [List.forall_mem_cons] at h
      rw [compileAll, compileAll, h.1, ih h.2]

/-- Settings that agree make the same set of filters, with the same reports on the way. -/
theorem Settings.Agrees.compile_eq {a b : Settings} (h : a.Agrees b) :
    FilterSet.compile a = FilterSet.compile b := by
  have hfilters := ChannelFilter.compileAll_congr a.filterVariant.schema h.formulas
  simp only [FilterSet.compile, h.validate_eq, h.fingerprint_eq, ← h.filterVariant_eq, hfilters]

end PenFilter
