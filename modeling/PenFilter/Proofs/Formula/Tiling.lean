import PenFilter.Proofs.Formula.Lexeme

/-! # White space and longest lexemes

A text has tokens when it is white space and lexemes, each of them the longest that begins where it
does (`Token.Tiling`).  The offset of a token is the number of bytes before its lexeme.  A text that
has no tokens is such a tiling up to the first place where something is wrong.

`Token.scan_tiles` says that the scanner answers just that, and that it would have accepted what
comes before the error. -/

namespace PenFilter

namespace Token

/-- A text from a byte offset on, with `rest` behind it, is white space and longest lexemes, which
spell these tokens. -/
inductive Tiling (rest : List Char) : Nat → List Char → List Placed → Prop
  | nil (offset : Nat) : Tiling rest offset [] []
  | blank {offset : Nat} {c : Char} {cs : List Char} {ps : List Placed} : isBlank c →
    Tiling rest (offset + c.utf8Size) cs ps → Tiling rest offset (c :: cs) ps
  | lexeme {offset : Nat} {w cs : List Char} {t : Token} {ps : List Placed} : Spells w t →
    Longest w (cs ++ rest) → Tiling rest (offset + byteLength w) cs ps →
    Tiling rest offset (w ++ cs) (⟨t, offset⟩ :: ps)

variable {rest cs : List Char} {ps : List Placed} {offset : Nat} {error : ParseError}

/-! ### Scanning a tiling -/

theorem Tiling.scanFrom_append (h : Tiling rest offset cs ps) :
    scanFrom offset 0 (cs ++ rest) =
      (scanFrom (offset + byteLength cs) 0 rest).map (ps ++ ·) := by
  induction h with
  | nil offset =>
      show scanFrom offset 0 rest = (scanFrom offset 0 rest).map id
      exact (id_map _).symm
  | @blank offset c cs ps hc _ ih =>
      rw [byteLength_cons, ← Nat.add_assoc, ← ih, List.cons_append, scanFrom]
      simp only [hc, if_true]
  | @lexeme offset w cs t ps hw hlongest _ ih =>
      obtain ⟨c, w, rfl⟩ := List.exists_cons_of_ne_nil hw.lexeme.ne_nil
      have hblank : isBlank c = false := hw.lexeme.isBlank_eq_false c List.mem_cons_self
      have hfront := front_of_spells hw hlongest rfl offset
      have htake : (w ++ (cs ++ rest)).take ((c :: w).length - 1) = w := List.take_left
      have hdrop : (w ++ (cs ++ rest)).drop ((c :: w).length - 1) = cs ++ rest := List.drop_left
      rw [List.append_assoc, List.cons_append, scanFrom]
      simp only [List.append_eq] at hfront
      simp only [hblank, hfront, scanFrom_drop _ ((c :: w).length - 1), htake, hdrop]
      rw [byteLength_cons, ← Nat.add_assoc] at ih
      rw [ih, byteLength_append, byteLength_cons, ← Nat.add_assoc, ← Nat.add_assoc]
      cases scanFrom (offset + c.utf8Size + byteLength w + byteLength cs) 0 rest <;> rfl

/-- The scanner stops where something is wrong. -/
theorem Fails.scanFrom_eq (h : Fails offset cs error) : scanFrom offset 0 cs = .error error := by
  have hhead : ∃ c rest, cs = c :: rest ∧ isBlank c = false := by
    cases h with
    | @char c rest hblank _ => exact ⟨c, rest, rfl, hblank⟩
    | @numeral m x rest hm hx _ _ =>
        have hlexeme : Lexeme (m ++ x) := .numeral hm hx
        obtain ⟨c, w, hw⟩ := List.exists_cons_of_ne_nil hlexeme.ne_nil
        refine ⟨c, w ++ rest, by rw [hw, List.cons_append], hlexeme.isBlank_eq_false c ?_⟩
        rw [hw]
        exact List.mem_cons_self
  obtain ⟨c, rest, rfl, hblank⟩ := hhead
  rw [scanFrom]
  simp only [hblank, front_of_fails h]
  rfl

/-- Every text can be tiled to its end or to a place where something is wrong. -/
theorem exists_tiling (offset : Nat) (cs : List Char) : ∃ before after ps,
    cs = before ++ after ∧ Tiling after offset before ps ∧
      (after = [] ∨ ∃ error, Fails (offset + byteLength before) after error) := by
  induction hlength : cs.length using Nat.strong_induction_on generalizing offset cs with
  | _ length ih =>
      cases cs with
      | nil => exact ⟨[], [], [], rfl, .nil offset, .inl rfl⟩
      | cons c cs =>
          by_cases hc : isBlank c
          · have hshorter : cs.length < length := by rw [← hlength, List.length_cons]; omega
            obtain ⟨before, after, ps, rfl, htiling, hend⟩ :=
              ih _ hshorter (offset + c.utf8Size) cs rfl
            rw [Nat.add_assoc, ← byteLength_cons] at hend
            exact ⟨c :: before, after, ps, rfl, .blank hc htiling, hend⟩
          · have hblank : isBlank c = false := by simpa using hc
            rcases exists_spells_or_fails hblank cs offset with
              ⟨w, rest, t, hsplit, hw, hlongest⟩ | ⟨error, hfails⟩
            · have hpos : 0 < w.length := List.length_pos_iff.mpr hw.lexeme.ne_nil
              have hshorter : rest.length < length := by
                rw [← hlength, hsplit, List.length_append]
                omega
              obtain ⟨before, after, ps, rfl, htiling, hend⟩ :=
                ih _ hshorter (offset + byteLength w) rest rfl
              rw [Nat.add_assoc, ← byteLength_append] at hend
              exact ⟨w ++ before, after, _, by rw [hsplit, List.append_assoc],
                .lexeme hw hlongest htiling, hend⟩
            · exact ⟨[], c :: cs, [], rfl, .nil offset, .inr ⟨error, hfails⟩⟩

/-! ### Where tokens stand -/

theorem Longest.of_append {w : List Char} (h : Longest w (cs ++ rest)) : Longest w cs := by
  intro v hv hpart
  apply h v hv
  rw [← List.append_assoc]
  exact hpart.trans (List.prefix_append _ rest)

/-- What is tiled is tiled also when it is cut off behind its last lexeme. -/
theorem Tiling.cut (h : Tiling rest offset cs ps) : Tiling [] offset cs ps := by
  induction h with
  | nil offset => exact .nil offset
  | blank hc _ ih => exact .blank hc ih
  | lexeme hw hlongest _ ih =>
      refine .lexeme hw ?_ ih
      rw [List.append_nil]
      exact hlongest.of_append

theorem Tiling.exists_lexeme (h : Tiling rest offset cs ps) : ∀ p ∈ ps, ∃ before w after,
    cs = before ++ w ++ after ∧ p.offset = offset + byteLength before ∧ Spells w p.token ∧
      Longest w (after ++ rest) := by
  induction h with
  | nil offset => exact nofun
  | @blank offset c cs ps hc _ ih =>
      intro p hp
      obtain ⟨before, w, after, rfl, hoffset, hw, hlongest⟩ := ih p hp
      refine ⟨c :: before, w, after, rfl, ?_, hw, hlongest⟩
      rw [hoffset, byteLength_cons, Nat.add_assoc]
  | @lexeme offset w cs t ps hw hlongest _ ih =>
      rw [List.forall_mem_cons]
      refine ⟨⟨[], w, cs, rfl, rfl, hw, hlongest⟩, fun p hp => ?_⟩
      obtain ⟨before, v, after, rfl, hoffset, hv, hlongest⟩ := ih p hp
      refine ⟨w ++ before, v, after, by simp only [List.append_assoc], ?_, hv, hlongest⟩
      rw [hoffset, byteLength_append, Nat.add_assoc]

theorem Tiling.pairwise_offset (h : Tiling rest offset cs ps) :
    (ps.map Placed.offset).Pairwise (· < ·) := by
  induction h with
  | nil offset => exact .nil
  | blank _ _ ih => exact ih
  | @lexeme offset w cs t ps hw _ htiling ih =>
      rw [List.map_cons, List.pairwise_cons]
      refine ⟨fun later hlater => ?_, ih⟩
      obtain ⟨p, hp, rfl⟩ := List.mem_map.mp hlater
      obtain ⟨before, -, -, -, hoffset, -⟩ := htiling.exists_lexeme p hp
      have hpos := byteLength_pos hw.lexeme.ne_nil
      show offset < p.offset
      omega

/-! ### Whole texts -/

theorem Tiling.scan_eq (h : Tiling [] 0 cs ps) : scan (String.ofList cs) = .ok ps := by
  have hscan := h.scanFrom_append
  rw [List.append_nil, scanFrom] at hscan
  rw [scan, String.toList_ofList, hscan]
  exact congrArg Except.ok (List.append_nil ps)

theorem Tiling.scan_eq_error {before after : List Char} (h : Tiling after 0 before ps)
    (hfails : Fails (byteLength before) after error) :
    scan (String.ofList (before ++ after)) = .error error := by
  rw [scan, String.toList_ofList, h.scanFrom_append, Nat.zero_add, hfails.scanFrom_eq]
  rfl

theorem scan_eq_ok_iff {source : String} :
    scan source = .ok ps ↔ Tiling [] 0 source.toList ps := by
  constructor
  · intro h
    obtain ⟨before, after, ps', hsplit, htiling, hend⟩ := exists_tiling 0 source.toList
    rw [← String.ofList_toList (s := source), hsplit] at h
    rcases hend with rfl | ⟨error, hfails⟩
    · rw [List.append_nil] at h hsplit
      cases htiling.scan_eq.symm.trans h
      rwa [hsplit]
    · rw [Nat.zero_add] at hfails
      cases (htiling.scan_eq_error hfails).symm.trans h
  · intro h
    have hscan := h.scan_eq
    rwa [String.ofList_toList] at hscan

/-- **Tokens are the longest lexemes of a text.**  The scanner accepts what is white space and
longest lexemes, with numerals that are proper; the offsets increase, and each is the number of
bytes before the lexeme of its token.  It refuses a text for the first place where no lexeme begins
or where the longest one is not a proper numeral, and what comes before that place is accepted. -/
theorem scan_tiles (source : String) :
    (∀ ps, scan source = .ok ps ↔ Tiling [] 0 source.toList ps) ∧
    (∀ ps, scan source = .ok ps → (ps.map Placed.offset).Pairwise (· < ·) ∧
      ∀ p ∈ ps, ∃ before w after, source.toList = before ++ w ++ after ∧
        p.offset = byteLength before ∧ Spells w p.token ∧ Longest w after) ∧
    ∀ error, scan source = .error error ↔
      ∃ before after ps, source.toList = before ++ after ∧ Tiling after 0 before ps ∧
        Fails (byteLength before) after error ∧ scan (String.ofList before) = .ok ps := by
  refine ⟨fun ps => scan_eq_ok_iff, fun ps h => ?_, fun error => ⟨fun h => ?_, ?_⟩⟩
  · have htiling := scan_eq_ok_iff.mp h
    refine ⟨htiling.pairwise_offset, fun p hp => ?_⟩
    obtain ⟨before, w, after, hsplit, hoffset, hw, hlongest⟩ := htiling.exists_lexeme p hp
    rw [Nat.zero_add] at hoffset
    rw [List.append_nil] at hlongest
    exact ⟨before, w, after, hsplit, hoffset, hw, hlongest⟩
  · obtain ⟨before, after, ps, hsplit, htiling, hend⟩ := exists_tiling 0 source.toList
    have hcut := htiling.cut.scan_eq
    refine ⟨before, after, ps, hsplit, htiling, ?_, hcut⟩
    rw [← String.ofList_toList (s := source), hsplit] at h
    rcases hend with rfl | ⟨error', hfails⟩
    · rw [List.append_nil] at h
      cases hcut.symm.trans h
    · rw [Nat.zero_add] at hfails
      cases (htiling.scan_eq_error hfails).symm.trans h
      exact hfails
  · rintro ⟨before, after, ps, hsplit, htiling, hfails, -⟩
    rw [← String.ofList_toList (s := source), hsplit]
    exact htiling.scan_eq_error hfails

/-- The theorem where a number is followed by a name that could have been its exponent, and where
the second number has two points. -/
theorem scan_tiles_points :
    let source := "2e\u00A03.1.4"
    let before : List Char := ['2', 'e', '\u00A0']
    scan source = .error (.invalidNumber "3.1.4" 4) ∧
      scan (String.ofList before) = .ok [⟨.number .two, 0⟩, ⟨.name "e", 1⟩] ∧
      (∃ before after ps, source.toList = before ++ after ∧ Tiling after 0 before ps ∧
        Fails (byteLength before) after (.invalidNumber "3.1.4" 4) ∧
        scan (String.ofList before) = .ok ps) ∧
      ∃ before' w after, before = before' ++ w ++ after ∧ 1 = byteLength before' ∧
        Spells w (.name "e") ∧ Longest w after := by
  intro source before
  have herror : scan source = .error (.invalidNumber "3.1.4" 4) := by
    have hchars : source.toList = ['2', 'e', '\u00A0', '3', '.', '1', '.', '4'] := by cbv
    rw [scan, hchars]
    rfl
  have hbefore : scan (String.ofList before) = .ok [⟨.number .two, 0⟩, ⟨.name "e", 1⟩] := by
    rw [scan, String.toList_ofList]
    rfl
  have hplaces := ((scan_tiles (String.ofList before)).2.1 _ hbefore).2 ⟨.name "e", 1⟩ (by simp)
  rw [String.toList_ofList] at hplaces
  exact ⟨herror, hbefore, ((scan_tiles source).2.2 _).mp herror, hplaces⟩

end Token

end PenFilter
