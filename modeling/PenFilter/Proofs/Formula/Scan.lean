import PenFilter.Formula.Lexeme
import PenFilter.Proofs.Text

/-! # Texts and their tokens

`Token.Scans cs ts` says that the characters `cs` are cut into the tokens `ts`; where the tokens
stand is left open.  A numeral or a name ends where a character follows that could not belong to
it (`Ends`), so that the tokens of a text can be told piece by piece (`Token.Scans.numeral`,
`Token.Scans.name`, `Token.Scans.symbol`, `Token.Scans.blank`).

What the tokens of a text can be is `Token.Lexical`: numbers are what decimals denote, and names
are made of the characters of names. -/

namespace PenFilter

/-- The rest of a text cannot prolong a numeral or a name before it. -/
def Ends (cs : List Char) : Prop := ∀ c ∈ cs.head?, isNameChar c = false ∧ c ≠ '.'

theorem ends_nil : Ends [] := nofun

theorem ends_cons {c : Char} {cs : List Char} (h : isNameChar c = false ∧ c ≠ '.') :
    Ends (c :: cs) := by
  rintro d ⟨⟩
  exact h

/-- A text is a name: it begins like one and goes on like one. -/
structure IsName (s : String) : Prop where
  start : ∀ c ∈ s.toList.head?, isNameStart c
  chars : ∀ c ∈ s.toList, isNameChar c
  ne_nil : s.toList ≠ []

/-! ### Characters -/

theorem isNameChar_of_isNameStart {c : Char} (h : isNameStart c) : isNameChar c := by
  simp only [isNameStart, isNameChar, Char.isAlphanum, Bool.or_eq_true] at h ⊢
  exact h.imp_left .inl

theorem toNat_of_isUpper {c : Char} (h : c.isUpper) : 65 ≤ c.toNat ∧ c.toNat ≤ 90 := by
  have hrange : c.val ≥ 'A'.val ∧ c.val ≤ 'Z'.val := of_decide_eq_true h
  exact hrange.imp UInt32.le_iff_toNat_le.mp UInt32.le_iff_toNat_le.mp

theorem toNat_of_isLower {c : Char} (h : c.isLower) : 97 ≤ c.toNat ∧ c.toNat ≤ 122 := by
  obtain ⟨hlow, hhigh⟩ := Bool.and_eq_true_iff.mp h
  have hrange : c.val ≥ 'a'.val ∧ c.val ≤ 'z'.val :=
    ⟨of_decide_eq_true hlow, of_decide_eq_true hhigh⟩
  exact hrange.imp UInt32.le_iff_toNat_le.mp UInt32.le_iff_toNat_le.mp

theorem toNat_of_isNameStart {c : Char} (h : isNameStart c) : 65 ≤ c.toNat ∧ c.toNat ≤ 122 := by
  rcases Bool.or_eq_true_iff.mp h with halpha | hline
  · rcases Bool.or_eq_true_iff.mp halpha with hupper | hlower
    · have hcode := toNat_of_isUpper hupper
      omega
    · have hcode := toNat_of_isLower hlower
      omega
  · rw [beq_iff_eq.mp hline]
    decide

theorem toNat_of_isDigit {c : Char} (h : c.isDigit) : 48 ≤ c.toNat ∧ c.toNat ≤ 57 :=
  Char.isDigit_iff_toNat.mp h

theorem toNat_of_isNameChar {c : Char} (h : isNameChar c ∨ c = '.') :
    46 ≤ c.toNat ∧ c.toNat ≤ 122 := by
  rcases h with h | rfl
  · have hcases : isNameStart c ∨ c.isDigit := by
      simp only [isNameChar, isNameStart, Char.isAlphanum, Bool.or_eq_true] at h ⊢
      exact h.elim (Or.imp_left .inl) fun hlow => .inl (.inr hlow)
    rcases hcases with hstart | hdigit
    · have hcode := toNat_of_isNameStart hstart
      omega
    · have hcode := toNat_of_isDigit hdigit
      omega
  · decide

theorem isMantissaChar_of_isNameStart {c : Char} (h : isNameStart c) :
    isMantissaChar c = false := by
  have hcode := toNat_of_isNameStart h
  rw [← Bool.not_eq_true, isMantissaChar, Bool.or_eq_true, beq_iff_eq]
  rintro (hdigit | rfl)
  · have hdigit := toNat_of_isDigit hdigit
    omega
  · exact absurd hcode (by decide)

theorem isBlank_of_isNameChar {c : Char} (h : isNameChar c ∨ c = '.') : isBlank c = false := by
  obtain ⟨hlow, hhigh⟩ := toNat_of_isNameChar h
  simp only [isBlank, Bool.or_eq_false_iff, Bool.and_eq_false_iff, decide_eq_false_iff_not,
    beq_eq_false_iff_ne]
  omega

theorem ofChar?_of_isNameChar {c : Char} (h : isNameChar c ∨ c = '.') : Token.ofChar? c = none := by
  unfold Token.ofChar?
  split <;> first | rfl | (revert h; decide)

theorem isMantissaChar_iff {c : Char} : isMantissaChar c = true ↔ c.isDigit ∨ c = '.' := by
  rw [isMantissaChar, Bool.or_eq_true, beq_iff_eq]

theorem isNameChar_of_isMantissaChar {c : Char} (h : c.isDigit ∨ c = '.') :
    isNameChar c ∨ c = '.' :=
  h.imp_left fun hdigit => by simp [isNameChar, Char.isAlphanum, hdigit]

namespace Token

/-! ### Scanning piece by piece -/

/-- The characters that still belong to a token are passed over, and their bytes are counted. -/
theorem scanFrom_drop (offset k : Nat) (cs : List Char) :
    scanFrom offset k cs = scanFrom (offset + byteLength (cs.take k)) 0 (cs.drop k) := by
  induction cs generalizing offset k with
  | nil => rw [List.drop_nil, scanFrom, scanFrom]
  | cons c cs ih =>
      cases k with
      | zero => rfl
      | succ k =>
          rw [List.take_succ_cons, List.drop_succ_cons, byteLength_cons, ← Nat.add_assoc, ← ih]
          rfl

/-- A text has these tokens, wherever it begins. -/
def Scans (cs : List Char) (ts : List Token) : Prop :=
  ∀ offset, ∃ ps, scanFrom offset 0 cs = .ok ps ∧ ps.map Placed.token = ts

theorem scans_nil : Scans [] [] := fun _ => ⟨[], rfl, rfl⟩

theorem Scans.blank {c : Char} {cs : List Char} {ts : List Token} (h : Scans cs ts)
    (hc : isBlank c) : Scans (c :: cs) ts := by
  intro offset
  obtain ⟨ps, hps, hts⟩ := h (offset + c.utf8Size)
  refine ⟨ps, ?_, hts⟩
  rw [scanFrom]
  simp only [hc, if_true, hps]

/-- A token of `n` characters, and what follows them. -/
theorem Scans.front {c : Char} {cs : List Char} {t : Token} {n : Nat} {ts : List Token}
    (h : Scans (cs.drop (n - 1)) ts) (hc : isBlank c = false)
    (hfront : ∀ offset, front offset c cs = .ok (t, n)) : Scans (c :: cs) (t :: ts) := by
  intro offset
  obtain ⟨ps, hps, hts⟩ := h (offset + c.utf8Size + byteLength (cs.take (n - 1)))
  refine ⟨⟨t, offset⟩ :: ps, ?_, by rw [List.map_cons, hts]⟩
  rw [scanFrom]
  simp only [hc, hfront, scanFrom_drop _ (n - 1), hps]
  rfl

theorem Scans.symbol {c : Char} {cs : List Char} {t : Token} {ts : List Token} (h : Scans cs ts)
    (ht : ofChar? c = some t) : Scans (c :: cs) (t :: ts) := by
  have hblank : isBlank c = false := by
    unfold ofChar? at ht
    split at ht <;> first | rfl | cases ht
  refine h.front (n := 1) hblank fun offset => ?_
  rw [Token.front, ht]

theorem exponentPart_of_ends {cs : List Char} (h : Ends cs) : exponentPart cs = [] := by
  cases cs with
  | nil => rfl
  | cons c cs =>
      have hname := (h c rfl).1
      have hlower : c ≠ 'e' := by rintro rfl; cases hname
      have hupper : c ≠ 'E' := by rintro rfl; cases hname
      simp [exponentPart, hlower, hupper]

theorem takeWhile_of_ends {p : Char → Bool} {ds cs : List Char} (hds : ∀ c ∈ ds, p c) (h : Ends cs)
    (hp : ∀ c, p c → isNameChar c ∨ c = '.') :
    (ds ++ cs).takeWhile p = ds ∧ (ds ++ cs).dropWhile p = cs := by
  apply span_append hds
  intro c hc
  rw [Bool.eq_false_iff]
  intro hstays
  rcases hp c hstays with hname | hpoint
  · rw [(h c hc).1] at hname
    cases hname
  · exact (h c hc).2 hpoint

theorem Scans.numeral {ds cs : List Char} {d : Decimal} {ts : List Token} (h : Scans cs ts)
    (hcs : Ends cs) (hds : ∀ c ∈ ds, c.isDigit ∨ c = '.') (hne : ds ≠ [])
    (hd : Decimal.read? ds = some d) :
    Scans (ds ++ cs) (.number (.ofDecimal _ d) :: ts) := by
  have hmantissa : ∀ c ∈ ds, isMantissaChar c := fun c hc => isMantissaChar_iff.mpr (hds c hc)
  obtain ⟨htake, hdrop⟩ := takeWhile_of_ends hmantissa hcs fun c hc =>
    isNameChar_of_isMantissaChar (isMantissaChar_iff.mp hc)
  have hpart : numeralPart (ds ++ cs) = ds := by
    rw [numeralPart, htake, hdrop, exponentPart_of_ends hcs, List.append_nil]
  obtain ⟨c, rest, rfl⟩ := List.exists_cons_of_ne_nil hne
  have hfirst := isNameChar_of_isMantissaChar (hds c List.mem_cons_self)
  have hlength : (rest ++ cs).drop ((c :: rest).length - 1) = cs := List.drop_left
  rw [List.cons_append]
  refine Scans.front (n := (c :: rest).length) (hlength.symm ▸ h) (isBlank_of_isNameChar hfirst)
    fun offset => ?_
  rw [List.cons_append] at hpart
  simp only [Token.front, ofChar?_of_isNameChar hfirst, hmantissa c List.mem_cons_self, if_true,
    hpart, hd]

theorem Scans.name {s : String} {cs : List Char} {ts : List Token} (h : Scans cs ts)
    (hcs : Ends cs) (hs : IsName s) : Scans (s.toList ++ cs) (.name s :: ts) := by
  obtain ⟨htake, -⟩ := takeWhile_of_ends hs.chars hcs fun c hc => .inl hc
  obtain ⟨c, rest, hchars⟩ := List.exists_cons_of_ne_nil hs.ne_nil
  have hstart : isNameStart c := hs.start c (by rw [hchars]; rfl)
  have hfirst : isNameChar c ∨ c = '.' := .inl (isNameChar_of_isNameStart hstart)
  have hmantissa : isMantissaChar c = false := isMantissaChar_of_isNameStart hstart
  have hpart : namePart (c :: (rest ++ cs)) = s.toList := by
    rw [namePart, ← List.cons_append, ← hchars, htake]
  have hlength : (rest ++ cs).drop (s.toList.length - 1) = cs := by
    rw [hchars]
    exact List.drop_left
  rw [hchars, List.cons_append]
  refine Scans.front (n := s.toList.length) (hlength.symm ▸ h) (isBlank_of_isNameChar hfirst)
    fun offset => ?_
  simp only [Token.front, ofChar?_of_isNameChar hfirst, hmantissa, hstart, if_true, hpart,
    String.ofList_toList]
  rfl

/-! ### What tokens there are -/

/-- A number is what a decimal denotes, and a name is a name. -/
def Lexical : Token → Prop
  | .number value => ∃ d, value = .ofDecimal _ d
  | .name s => IsName s
  | .plus | .minus | .star | .slash | .caret | .opening | .closing | .comma => True

theorem lexical_of_ofChar? {c : Char} {t : Token} (h : ofChar? c = some t) : t.Lexical := by
  unfold ofChar? at h
  split at h <;> cases h <;> trivial

theorem isName_namePart {c : Char} (h : isNameStart c) (cs : List Char) :
    IsName (String.ofList (namePart (c :: cs))) := by
  have hpart : namePart (c :: cs) = c :: cs.takeWhile isNameChar :=
    List.takeWhile_cons_of_pos (isNameChar_of_isNameStart h)
  refine ⟨?_, ?_, ?_⟩ <;> rw [String.toList_ofList, hpart]
  · rintro d ⟨⟩
    exact h
  · intro d hd
    rcases List.mem_cons.mp hd with rfl | hd
    · exact isNameChar_of_isNameStart h
    · exact List.mem_takeWhile_imp hd
  · exact List.cons_ne_nil _ _

theorem lexical_front {offset : Nat} {c : Char} {cs : List Char} {t : Token} {n : Nat}
    (h : front offset c cs = .ok (t, n)) : t.Lexical := by
  unfold front at h
  split at h
  · rename_i hsymbol
    cases h
    exact lexical_of_ofChar? hsymbol
  · split at h
    · dsimp only at h
      split at h
      · cases h
        exact ⟨_, rfl⟩
      · cases h
    · split at h
      · rename_i hstart
        cases h
        exact isName_namePart hstart cs
      · cases h

theorem lexical_of_scanFrom {offset pending : Nat} {cs : List Char} {ps : List Placed}
    (h : scanFrom offset pending cs = .ok ps) : ∀ p ∈ ps, p.token.Lexical := by
  induction cs generalizing offset pending ps with
  | nil =>
      cases h
      exact nofun
  | cons c cs ih =>
      cases pending with
      | succ k => exact ih h
      | zero =>
          rw [scanFrom] at h
          split at h
          · exact ih h
          · split at h
            · cases h
            · rename_i t n hfront
              cases hrest : scanFrom (offset + c.utf8Size) (n - 1) cs with
              | error error =>
                  rw [hrest] at h
                  cases h
              | ok rest =>
                  rw [hrest] at h
                  cases h
                  exact List.forall_mem_cons.mpr ⟨lexical_front hfront, ih hrest⟩

/-- The tokens of a text are lexical. -/
theorem lexical_of_scan {source : String} {ps : List Placed} (h : scan source = .ok ps) :
    ∀ p ∈ ps, p.token.Lexical :=
  lexical_of_scanFrom h

end Token

end PenFilter
