import PenFilter.Proofs.Formula.Scan
import PenFilter.Proofs.Json.Literal

/-! # Lexemes

A lexeme is a symbol, a name, or digits and points with or without an exponent (`Token.Lexeme`).
Every numeral has that shape, but not everything of that shape is a numeral: it needs a digit before
the exponent and must not have two points (`Mantissa.Proper`).  This is what the reader of numbers
asks for (`Decimal.isSome_read?_iff`).

Where a lexeme begins, there is a longest one (`Token.Longest`), and that is the one that is taken
(`Token.front_of_spells`, `Token.front_of_fails`). -/

namespace PenFilter

open Json (Digits Exponent)

/-- The digits and points of a numeral. -/
structure Mantissa (cs : List Char) : Prop where
  ne_nil : cs ≠ []
  chars : ∀ c ∈ cs, c.isDigit ∨ c = '.'

/-- At least one digit, and at most one point. -/
structure Mantissa.Proper (cs : List Char) : Prop where
  digit : ∃ c ∈ cs, c.isDigit
  point : cs.count '.' ≤ 1

/-! ### Exponents -/

theorem Json.Exponent.head_isLetter {c : Char} {cs : List Char} (h : Exponent (c :: cs)) :
    c = 'e' ∨ c = 'E' := by
  generalize hcs : c :: cs = x at h
  cases h with
  | none => cases hcs
  | digits hletter _ _ =>
      cases hcs
      exact hletter

theorem Json.Exponent.not_isMantissaChar {x rest : List Char} (h : Exponent x) (hne : x ≠ []) :
    ∀ c ∈ (x ++ rest).head?, isMantissaChar c = false := by
  obtain ⟨c, cs, rfl⟩ := List.exists_cons_of_ne_nil hne
  rintro _ ⟨⟩
  rcases h.head_isLetter with rfl | rfl <;> rfl

theorem exists_sign (cs : List Char) : ∃ sign ds, cs = sign ++ ds ∧
    (sign = [] ∨ sign = ['+'] ∨ sign = ['-']) ∧
    (sign = [] → ∀ d ∈ ds.head?, d ≠ '+' ∧ d ≠ '-') ∧
    ∀ c, c = 'e' ∨ c = 'E' → exponentPart (c :: cs) =
      if (ds.takeWhile Char.isDigit).isEmpty then []
      else c :: sign ++ ds.takeWhile Char.isDigit := by
  have hletter : ∀ c : Char, c = 'e' ∨ c = 'E' → (c == 'e' || c == 'E') = true := by simp
  have hsigned : ∀ {c : Char} {ds : List Char}, [c] = [] → ∀ d ∈ ds.head?, d ≠ '+' ∧ d ≠ '-' :=
    fun h => absurd h (List.cons_ne_nil _ _)
  by_cases hplus : ∃ ds, cs = '+' :: ds
  · obtain ⟨ds, rfl⟩ := hplus
    exact ⟨['+'], ds, rfl, .inr (.inl rfl), hsigned,
      fun c hc => by simp [exponentPart, hletter c hc]⟩
  · by_cases hminus : ∃ ds, cs = '-' :: ds
    · obtain ⟨ds, rfl⟩ := hminus
      exact ⟨['-'], ds, rfl, .inr (.inr rfl), hsigned,
        fun c hc => by simp [exponentPart, hletter c hc]⟩
    · refine ⟨[], cs, rfl, .inl rfl, fun _ d hd => ?_, fun c hc => ?_⟩
      · obtain ⟨ds, rfl⟩ := List.head?_eq_some_iff.mp hd
        exact ⟨fun h => hplus ⟨ds, by rw [h]⟩, fun h => hminus ⟨ds, by rw [h]⟩⟩
      · rw [exponentPart, if_pos (hletter c hc)]
        · exact fun ds h => hplus ⟨ds, h⟩
        · exact fun ds h => hminus ⟨ds, h⟩

theorem eq_of_sign_append {sign sign' ds rest : List Char} {d : Char}
    (hsign : sign = [] ∨ sign = ['+'] ∨ sign = ['-'])
    (hsign' : sign' = [] ∨ sign' = ['+'] ∨ sign' = ['-'])
    (hnone : sign = [] → ∀ d ∈ ds.head?, d ≠ '+' ∧ d ≠ '-') (hd : d.isDigit)
    (h : sign' ++ d :: rest = sign ++ ds) : sign' = sign ∧ d :: rest = ds := by
  have hplus : d ≠ '+' := by rintro rfl; cases hd
  have hminus : d ≠ '-' := by rintro rfl; cases hd
  suffices hsame : sign' = sign by
    subst hsame
    exact ⟨rfl, List.append_cancel_left h⟩
  rcases hsign with rfl | rfl | rfl
  · have hhead := hnone rfl
    rw [List.nil_append] at h
    rw [← h] at hhead
    rcases hsign' with rfl | rfl | rfl
    · rfl
    · exact absurd rfl (hhead '+' rfl).1
    · exact absurd rfl (hhead '-' rfl).2
  · rcases hsign' with rfl | rfl | rfl
    · exact absurd (List.cons.inj h).1 hplus
    · rfl
    · exact absurd (List.cons.inj h).1 (by decide)
  · rcases hsign' with rfl | rfl | rfl
    · exact absurd (List.cons.inj h).1 hminus
    · exact absurd (List.cons.inj h).1 (by decide)
    · rfl

theorem exponentPart_of_not_isLetter {c : Char} (h : ¬ (c = 'e' ∨ c = 'E')) (cs : List Char) :
    exponentPart (c :: cs) = [] := by
  have hletter : (c == 'e' || c == 'E') = false := by simpa using h
  simp [exponentPart, hletter]

theorem exponent_exponentPart (cs : List Char) : Exponent (exponentPart cs) := by
  cases cs with
  | nil => exact .none
  | cons c cs =>
      by_cases hc : c = 'e' ∨ c = 'E'
      · obtain ⟨sign, ds, rfl, hsign, -, hpart⟩ := exists_sign cs
        rw [hpart c hc]
        split
        · exact .none
        · rename_i hne
          exact .digits hc hsign
            ⟨fun h => hne (List.isEmpty_iff.mpr h), fun d hd => List.mem_takeWhile_imp hd⟩
      · rw [exponentPart_of_not_isLetter hc]
        exact .none

theorem exponentPart_prefix (cs : List Char) : exponentPart cs <+: cs := by
  cases cs with
  | nil => exact List.prefix_refl []
  | cons c cs =>
      by_cases hc : c = 'e' ∨ c = 'E'
      · obtain ⟨sign, ds, rfl, -, -, hpart⟩ := exists_sign cs
        rw [hpart c hc]
        split
        · exact List.nil_prefix
        · rw [List.cons_append, List.prefix_cons_inj, List.prefix_append_right_inj]
          exact List.takeWhile_prefix _
      · rw [exponentPart_of_not_isLetter hc]
        exact List.nil_prefix

/-- No exponent at the front of a text is longer than the one that is taken. -/
theorem Json.Exponent.prefix_exponentPart {x cs : List Char} (h : Exponent x) (hx : x <+: cs) :
    x <+: exponentPart cs := by
  cases h with
  | none => exact List.nil_prefix
  | @digits c sign' ds' hc hsign' hds' =>
      obtain ⟨rest, rfl⟩ := hx
      obtain ⟨sign, ds, hsplit, hsign, hnone, hpart⟩ := exists_sign (sign' ++ ds' ++ rest)
      obtain ⟨d, more, rfl⟩ := List.exists_cons_of_ne_nil hds'.ne_nil
      have hd : d.isDigit := hds'.isDigit d List.mem_cons_self
      rw [List.append_assoc] at hsplit
      obtain ⟨rfl, hds⟩ := eq_of_sign_append hsign hsign' hnone hd hsplit
      have htaken : d :: more <+: ds.takeWhile Char.isDigit :=
        prefix_takeWhile ⟨rest, hds⟩ hds'.isDigit
      rw [List.cons_append, List.cons_append, hpart c hc, if_neg]
      · rw [List.cons_append, List.prefix_cons_inj, List.prefix_append_right_inj]
        exact htaken
      · intro hempty
        rw [List.isEmpty_iff.mp hempty, List.prefix_nil] at htaken
        cases htaken

/-! ### Numerals -/

theorem mantissa_takeWhile {c : Char} (h : isMantissaChar c) (cs : List Char) :
    Mantissa ((c :: cs).takeWhile isMantissaChar) := by
  refine ⟨?_, fun d hd => isMantissaChar_iff.mp (List.mem_takeWhile_imp hd)⟩
  rw [List.takeWhile_cons_of_pos h]
  exact List.cons_ne_nil _ _

theorem numeralPart_prefix (cs : List Char) : numeralPart cs <+: cs := by
  obtain ⟨rest, hrest⟩ := exponentPart_prefix (cs.dropWhile isMantissaChar)
  refine ⟨rest, ?_⟩
  rw [numeralPart, List.append_assoc, hrest, List.takeWhile_append_dropWhile]

/-- No digits and points, with or without an exponent, at the front of a text are longer than those
that are taken. -/
theorem Mantissa.prefix_numeralPart {m x cs : List Char} (hm : Mantissa m) (hx : Exponent x)
    (h : m ++ x <+: cs) : m ++ x <+: numeralPart cs := by
  have hchars : ∀ c ∈ m, isMantissaChar c := fun c hc => isMantissaChar_iff.mpr (hm.chars c hc)
  by_cases hnil : x = []
  · subst hnil
    rw [List.append_nil] at h ⊢
    exact (prefix_takeWhile h hchars).trans (List.prefix_append _ _)
  · obtain ⟨rest, rfl⟩ := h
    have hbehind : ∀ c ∈ (x ++ rest).head?, isMantissaChar c = false := hx.not_isMantissaChar hnil
    obtain ⟨htake, hdrop⟩ := span_append hchars hbehind
    rw [List.append_assoc, numeralPart, htake, hdrop, List.prefix_append_right_inj]
    exact hx.prefix_exponentPart (List.prefix_append x rest)

theorem exists_digits_append {cs : List Char} (h : ∀ c ∈ cs, c.isDigit ∨ c = '.') :
    ∃ ds rest, cs = ds ++ rest ∧ (∀ c ∈ ds, c.isDigit) ∧
      (rest = [] ∨ ∃ more, rest = '.' :: more) := by
  induction cs with
  | nil => exact ⟨[], [], rfl, nofun, .inl rfl⟩
  | cons c cs ih =>
      obtain ⟨hc, hcs⟩ := List.forall_mem_cons.mp h
      rcases hc with hdigit | rfl
      · obtain ⟨ds, rest, rfl, hds, hrest⟩ := ih hcs
        exact ⟨c :: ds, rest, rfl, List.forall_mem_cons.mpr ⟨hdigit, hds⟩, hrest⟩
      · exact ⟨[], '.' :: cs, rfl, nofun, .inr ⟨cs, rfl⟩⟩

namespace Decimal

theorem isSome_exponent? {x : List Char} (h : Exponent x) : (exponent? x).isSome := by
  cases h with
  | none => rfl
  | @digits c sign ds hc hsign hds =>
      have hletter : (c == 'e' || c == 'E') = true := by simpa using hc
      obtain ⟨d, more, rfl⟩ := List.exists_cons_of_ne_nil hds.ne_nil
      have hd : d.isDigit := hds.isDigit d List.mem_cons_self
      have hsigned : ∃ negative, sign? (sign ++ d :: more) = (negative, d :: more) := by
        rcases hsign with rfl | rfl | rfl
        · refine ⟨false, ?_⟩
          rw [List.nil_append, sign?]
          · rintro _ ⟨⟩
            cases hd
          · rintro _ ⟨⟩
            cases hd
        · exact ⟨false, rfl⟩
        · exact ⟨true, rfl⟩
      obtain ⟨negative, hsigned⟩ := hsigned
      have hdigits : (d :: more).any (!·.isDigit) = false := by
        simpa using hds.isDigit
      rw [List.cons_append, exponent?, if_pos hletter, hsigned]
      simp [hdigits]

theorem count_point_eq_zero {ds : List Char} (h : ∀ c ∈ ds, c.isDigit) : ds.count '.' = 0 :=
  List.count_eq_zero.mpr fun hmem => nomatch h '.' hmem

/-- The reader of numbers asks for a digit before the exponent and for no second point. -/
theorem isSome_read?_iff {m x : List Char} (hm : Mantissa m) (hx : Exponent x) :
    (read? (m ++ x)).isSome ↔ Mantissa.Proper m := by
  have hhead : ∀ c ∈ x.head?, c.isDigit = false ∧ c ≠ '.' := by
    intro c hc
    obtain ⟨cs, rfl⟩ := List.head?_eq_some_iff.mp hc
    rcases hx.head_isLetter with rfl | rfl <;> exact ⟨rfl, by decide⟩
  obtain ⟨ws, rest, rfl, hws, rfl | ⟨more, rfl⟩⟩ := exists_digits_append hm.chars
  · -- no point
    rw [List.append_nil] at hm ⊢
    obtain ⟨d, hd⟩ := List.exists_mem_of_ne_nil ws hm.ne_nil
    rw [read?_whole hws hhead, if_neg hm.ne_nil, Option.isSome_map]
    exact ⟨fun _ => ⟨⟨d, hd, hws d hd⟩, by rw [count_point_eq_zero hws]; omega⟩,
      fun _ => isSome_exponent? hx⟩
  · have hmore : ∀ c ∈ more, c.isDigit ∨ c = '.' := fun c hc =>
      hm.chars c (List.mem_append_right _ (List.mem_cons_of_mem _ hc))
    obtain ⟨fs, rest, rfl, hfs, rfl | ⟨more, rfl⟩⟩ := exists_digits_append hmore
    · -- one point
      rw [List.append_nil, List.append_assoc, List.cons_append,
        read?_fraction hws hfs fun c hc => (hhead c hc).1]
      split
      · rename_i hnone
        obtain ⟨rfl, rfl⟩ := hnone
        refine ⟨nofun, fun h => ?_⟩
        obtain ⟨d, hd, hdigit⟩ := h.digit
        rw [List.mem_singleton.mp hd] at hdigit
        cases hdigit
      · rename_i hsome
        have hdigit : ∃ d ∈ ws ++ '.' :: fs, d.isDigit := by
          by_cases hnil : ws = []
          · obtain ⟨d, hd⟩ := List.exists_mem_of_ne_nil fs fun h => hsome ⟨hnil, h⟩
            exact ⟨d, List.mem_append_right _ (List.mem_cons_of_mem _ hd), hfs d hd⟩
          · obtain ⟨d, hd⟩ := List.exists_mem_of_ne_nil ws hnil
            exact ⟨d, List.mem_append_left _ hd, hws d hd⟩
        have hpoints : (ws ++ '.' :: fs).count '.' ≤ 1 := by
          rw [List.count_append, List.count_cons_self, count_point_eq_zero hws,
            count_point_eq_zero hfs]
        rw [Option.isSome_map]
        exact ⟨fun _ => ⟨hdigit, hpoints⟩, fun _ => isSome_exponent? hx⟩
    · -- two points at least
      have hrest : ∀ c ∈ ('.' :: (more ++ x)).head?, c.isDigit = false := by
        rintro _ ⟨⟩
        rfl
      have hread : read? (ws ++ '.' :: (fs ++ '.' :: (more ++ x))) = none := by
        rw [read?_fraction hws hfs hrest]
        split <;> rfl
      rw [List.append_assoc, List.cons_append, List.append_assoc, List.cons_append, hread]
      refine ⟨nofun, fun h => ?_⟩
      have hpoints := h.point
      rw [List.count_append, List.count_cons_self, List.count_append, List.count_cons_self]
        at hpoints
      omega

end Decimal

namespace Token

/-! ### Lexemes -/

/-- What has the shape of a token. -/
inductive Lexeme : List Char → Prop
  | symbol {c : Char} {t : Token} : ofChar? c = some t → Lexeme [c]
  | name {s : String} : IsName s → Lexeme s.toList
  | numeral {m x : List Char} : Mantissa m → Exponent x → Lexeme (m ++ x)

/-- A lexeme and the token that it is. -/
inductive Spells : List Char → Token → Prop
  | symbol {c : Char} {t : Token} : ofChar? c = some t → Spells [c] t
  | name {s : String} : IsName s → Spells s.toList (.name s)
  | number {m x : List Char} {d : Decimal} : Mantissa m → Exponent x → Mantissa.Proper m →
    Decimal.read? (m ++ x) = some d → Spells (m ++ x) (.number (.ofDecimal _ d))

/-- No longer lexeme begins where `w` does. -/
def Longest (w rest : List Char) : Prop := ∀ v, Lexeme v → v <+: w ++ rest → v.length ≤ w.length

/-- What is wrong at the front of a text: a character that begins no lexeme, or a lexeme of digits
and points, taken as long as possible, that is no numeral. -/
inductive Fails (offset : Nat) : List Char → ParseError → Prop
  | char {c : Char} {cs : List Char} : isBlank c = false → (∀ w, ¬ Lexeme (c :: w)) →
    Fails offset (c :: cs) (.unexpectedChar c offset)
  | numeral {m x rest : List Char} : Mantissa m → Exponent x → Longest (m ++ x) rest →
    ¬ Mantissa.Proper m →
    Fails offset (m ++ x ++ rest) (.invalidNumber (String.ofList (m ++ x)) offset)

variable {c : Char} {cs m x rest v w : List Char} {t : Token} {offset : Nat} {s : String}

theorem Spells.lexeme (h : Spells w t) : Lexeme w := by
  cases h with
  | symbol h => exact .symbol h
  | name h => exact .name h
  | number hm hx _ _ => exact .numeral hm hx

theorem spells_namePart (hc : isNameStart c) (cs : List Char) :
    Spells (namePart (c :: cs)) (.name (String.ofList (namePart (c :: cs)))) := by
  have hspells := Spells.name (isName_namePart hc cs)
  rwa [String.toList_ofList] at hspells

theorem spells_letter (hc : isNameStart c) : Spells [c] (.name (String.ofList [c])) := by
  have hpart : namePart [c] = [c] := List.takeWhile_cons_of_pos (isNameChar_of_isNameStart hc)
  have hspells := spells_namePart hc []
  rwa [hpart] at hspells

theorem isBlank_of_ofChar? (h : ofChar? c = some t) : isBlank c = false := by
  unfold ofChar? at h
  split at h <;> first | rfl | cases h

theorem Lexeme.ne_nil (h : Lexeme w) : w ≠ [] := by
  cases h with
  | symbol _ => exact List.cons_ne_nil _ _
  | name h => exact h.ne_nil
  | numeral hm _ => exact List.append_ne_nil_of_left_ne_nil hm.ne_nil _

theorem Lexeme.isBlank_eq_false (h : Lexeme w) : ∀ c ∈ w, isBlank c = false := by
  cases h with
  | symbol h => exact List.forall_mem_singleton.mpr (isBlank_of_ofChar? h)
  | name h => exact fun c hc => isBlank_of_isNameChar (.inl (h.chars c hc))
  | numeral hm hx =>
      rw [List.forall_mem_append]
      refine ⟨fun c hc => isBlank_of_isNameChar (isNameChar_of_isMantissaChar (hm.chars c hc)), ?_⟩
      cases hx with
      | none => exact nofun
      | digits hc hsign hds =>
          rw [List.cons_append, List.forall_mem_cons, List.forall_mem_append]
          refine ⟨by rcases hc with rfl | rfl <;> rfl, ?_, fun d hd => ?_⟩
          · rcases hsign with rfl | rfl | rfl <;> simp <;> rfl
          · exact isBlank_of_isNameChar (isNameChar_of_isMantissaChar (.inl (hds.isDigit d hd)))

/-- The first character of a lexeme tells what kind it is of. -/
theorem Lexeme.kind (h : Lexeme (c :: cs)) :
    (cs = [] ∧ ∃ t, ofChar? c = some t) ∨ (isNameStart c ∧ ∀ d ∈ c :: cs, isNameChar d) ∨
      (isMantissaChar c ∧ ∃ m x, c :: cs = m ++ x ∧ Mantissa m ∧ Exponent x) := by
  generalize hw : c :: cs = w at h
  cases h with
  | symbol h =>
      cases hw
      exact .inl ⟨rfl, _, h⟩
  | name h => exact .inr (.inl ⟨h.start c (by rw [← hw]; rfl), h.chars⟩)
  | @numeral m x hm hx =>
      obtain ⟨d, ds, rfl⟩ := List.exists_cons_of_ne_nil hm.ne_nil
      cases hw
      exact .inr (.inr ⟨isMantissaChar_iff.mpr (hm.chars c List.mem_cons_self), _, x, rfl, hm, hx⟩)

/-! ### The longest lexeme -/

theorem longest_symbol (h : ofChar? c = some t) (cs : List Char) : Longest [c] cs := by
  have hother : ¬ (isNameChar c ∨ c = '.') := by
    intro hchar
    cases (ofChar?_of_isNameChar hchar).symm.trans h
  intro v hv hpart
  obtain ⟨d, ds, rfl⟩ := List.exists_cons_of_ne_nil hv.ne_nil
  obtain rfl := (List.cons_prefix_cons.mp hpart).1
  rcases hv.kind with ⟨rfl, -⟩ | ⟨hstart, -⟩ | ⟨hmantissa, -⟩
  · exact Nat.le_refl 1
  · exact absurd (.inl (isNameChar_of_isNameStart hstart)) hother
  · exact absurd (isNameChar_of_isMantissaChar (isMantissaChar_iff.mp hmantissa)) hother

theorem Lexeme.prefix_namePart (hv : Lexeme v) (hstart : isNameStart c) (hpart : v <+: c :: cs) :
    v <+: namePart (c :: cs) := by
  obtain ⟨d, ds, rfl⟩ := List.exists_cons_of_ne_nil hv.ne_nil
  obtain rfl := (List.cons_prefix_cons.mp hpart).1
  rcases hv.kind with ⟨rfl, t, ht⟩ | ⟨-, hchars⟩ | ⟨hmantissa, -⟩
  · cases (ofChar?_of_isNameChar (.inl (isNameChar_of_isNameStart hstart))).symm.trans ht
  · exact prefix_takeWhile hpart hchars
  · cases (isMantissaChar_of_isNameStart hstart).symm.trans hmantissa

theorem Lexeme.prefix_numeralPart (hv : Lexeme v) (hc : isMantissaChar c) (hpart : v <+: c :: cs) :
    v <+: numeralPart (c :: cs) := by
  obtain ⟨d, ds, rfl⟩ := List.exists_cons_of_ne_nil hv.ne_nil
  obtain rfl := (List.cons_prefix_cons.mp hpart).1
  rcases hv.kind with ⟨rfl, t, ht⟩ | ⟨hstart, -⟩ | ⟨-, m, x, hsplit, hm, hx⟩
  · cases (ofChar?_of_isNameChar
      (isNameChar_of_isMantissaChar (isMantissaChar_iff.mp hc))).symm.trans ht
  · cases (isMantissaChar_of_isNameStart hstart).symm.trans hc
  · rw [hsplit] at hpart ⊢
    exact hm.prefix_numeralPart hx hpart

theorem lexeme_numeralPart (hc : isMantissaChar c) (cs : List Char) :
    Lexeme (numeralPart (c :: cs)) :=
  .numeral (mantissa_takeWhile hc cs) (exponent_exponentPart _)

theorem namePart_of_longest (hs : IsName s) (h : Longest s.toList rest) :
    namePart (s.toList ++ rest) = s.toList := by
  obtain ⟨c, cs, hsplit⟩ := List.exists_cons_of_ne_nil hs.ne_nil
  have hstart : isNameStart c := hs.start c (by rw [hsplit]; rfl)
  have hlexeme : Lexeme (namePart (s.toList ++ rest)) := by
    rw [hsplit, List.cons_append]
    exact (spells_namePart hstart _).lexeme
  have hpart : s.toList <+: namePart (s.toList ++ rest) :=
    prefix_takeWhile (List.prefix_append _ _) hs.chars
  exact (hpart.eq_of_length_le (h _ hlexeme (List.takeWhile_prefix _))).symm

theorem numeralPart_of_longest (hm : Mantissa m) (hx : Exponent x) (h : Longest (m ++ x) rest) :
    numeralPart (m ++ x ++ rest) = m ++ x := by
  obtain ⟨c, cs, rfl⟩ := List.exists_cons_of_ne_nil hm.ne_nil
  have hc : isMantissaChar c := isMantissaChar_iff.mpr (hm.chars c List.mem_cons_self)
  have hpart := hm.prefix_numeralPart hx (List.prefix_append _ rest)
  have hlength := h _ (lexeme_numeralPart hc _) <| numeralPart_prefix _
  exact (hpart.eq_of_length_le hlength).symm

/-! ### What is taken -/

theorem front_of_spells (h : Spells w t) (hlongest : Longest w rest) (hw : w ++ rest = c :: cs)
    (offset : Nat) : front offset c cs = .ok (t, w.length) := by
  cases h with
  | symbol h =>
      cases hw
      rw [front, h]
      rfl
  | @name s hs =>
      obtain ⟨d, ds, hsplit⟩ := List.exists_cons_of_ne_nil hs.ne_nil
      have hpart := namePart_of_longest hs hlongest
      have hstart : isNameStart d := hs.start d (by rw [hsplit]; rfl)
      rw [hw] at hpart
      rw [hsplit] at hw
      cases hw
      simp only [front, ofChar?_of_isNameChar (.inl (isNameChar_of_isNameStart hstart)),
        isMantissaChar_of_isNameStart hstart, hstart, hpart, if_true, String.ofList_toList]
      rfl
  | @number m x d hm hx _ hd =>
      obtain ⟨e, m, rfl⟩ := List.exists_cons_of_ne_nil hm.ne_nil
      have hpart := numeralPart_of_longest hm hx hlongest
      have hmantissa : e.isDigit ∨ e = '.' := hm.chars e List.mem_cons_self
      rw [hw] at hpart
      cases hw
      simp only [front, ofChar?_of_isNameChar (isNameChar_of_isMantissaChar hmantissa),
        isMantissaChar_iff.mpr hmantissa, hpart, hd, if_true]

/-- What is wrong is what is complained of. -/
theorem front_of_fails {error : ParseError} (h : Fails offset (c :: cs) error) :
    front offset c cs = .error error := by
  generalize htext : c :: cs = text at h
  cases h with
  | char hblank hnone =>
      cases htext
      have hsymbol : ofChar? c = none := by
        cases hsymbol : ofChar? c with
        | none => rfl
        | some t => exact absurd (.symbol hsymbol) (hnone [])
      have hmantissa : isMantissaChar c = false := by
        rw [Bool.eq_false_iff]
        intro hmantissa
        have hone : Mantissa [c] :=
          ⟨List.cons_ne_nil _ _, List.forall_mem_singleton.mpr (isMantissaChar_iff.mp hmantissa)⟩
        exact hnone _ (.numeral hone .none)
      have hstart : isNameStart c = false := by
        rw [Bool.eq_false_iff]
        intro hstart
        exact hnone [] (spells_letter hstart).lexeme
      simp [front, hsymbol, hmantissa, hstart]
  | @numeral m x rest hm hx hlongest himproper =>
      obtain ⟨e, m, rfl⟩ := List.exists_cons_of_ne_nil hm.ne_nil
      have hpart := numeralPart_of_longest hm hx hlongest
      have hmantissa : e.isDigit ∨ e = '.' := hm.chars e List.mem_cons_self
      have hread : Decimal.read? (e :: m ++ x) = none := by
        rw [← Option.not_isSome_iff_eq_none, Decimal.isSome_read?_iff hm hx]
        exact himproper
      rw [← htext] at hpart
      cases htext
      simp only [front, ofChar?_of_isNameChar (isNameChar_of_isMantissaChar hmantissa),
        isMantissaChar_iff.mpr hmantissa, hpart, hread, if_true]

/-- Behind white space there is a longest lexeme that is a token, or something is wrong. -/
theorem exists_spells_or_fails (hc : isBlank c = false) (cs : List Char) (offset : Nat) :
    (∃ w rest t, c :: cs = w ++ rest ∧ Spells w t ∧ Longest w rest) ∨
      ∃ error, Fails offset (c :: cs) error := by
  cases hsymbol : ofChar? c with
  | some t => exact .inl ⟨[c], cs, t, rfl, .symbol hsymbol, longest_symbol hsymbol cs⟩
  | none =>
      by_cases hmantissa : isMantissaChar c
      · obtain ⟨rest, hrest⟩ := numeralPart_prefix (c :: cs)
        have hm := mantissa_takeWhile hmantissa cs
        have hx := exponent_exponentPart ((c :: cs).dropWhile isMantissaChar)
        have hlongest : Longest (numeralPart (c :: cs)) rest := fun v hv hpart =>
          (hv.prefix_numeralPart hmantissa (hrest ▸ hpart)).length_le
        by_cases hproper : Mantissa.Proper ((c :: cs).takeWhile isMantissaChar)
        · obtain ⟨d, hd⟩ :=
            Option.isSome_iff_exists.mp ((Decimal.isSome_read?_iff hm hx).mpr hproper)
          exact .inl ⟨_, rest, _, hrest.symm, .number hm hx hproper hd, hlongest⟩
        · have hfails : Fails offset _ _ := .numeral hm hx hlongest hproper
          rw [← numeralPart, hrest] at hfails
          exact .inr ⟨_, hfails⟩
      · by_cases hstart : isNameStart c
        · obtain ⟨rest, hrest⟩ : namePart (c :: cs) <+: c :: cs := List.takeWhile_prefix _
          exact .inl ⟨_, rest, _, hrest.symm, spells_namePart hstart cs, fun v hv hpart =>
            (hv.prefix_namePart hstart (hrest ▸ hpart)).length_le⟩
        · refine .inr ⟨_, .char hc fun w hw => ?_⟩
          rcases hw.kind with ⟨-, t, ht⟩ | ⟨hname, -⟩ | ⟨hnumeral, -⟩
          · cases hsymbol.symm.trans ht
          · exact hstart hname
          · exact hmantissa hnumeral

end Token

end PenFilter
