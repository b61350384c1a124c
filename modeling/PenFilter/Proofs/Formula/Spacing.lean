import PenFilter.Proofs.Formula.Relocation
import PenFilter.Proofs.Formula.Resolution
import PenFilter.Proofs.Formula.Tiling

/-! # White space between tokens

White space may be put into a text between its lexemes, wherever these are (`Token.Spaced`).  A
lexeme that was the longest one stays so: nothing that is longer is without white space, unless it
was there before (`Token.Spaced.longest`).  So the tokens are the same, at other offsets, and so is
all that is made of them (`Token.parse_relocate`, `Token.spacing_irrelevant`). -/

namespace PenFilter

namespace Token

/-- The second text is the first one with white space put between its lexemes, before the first
one and behind the last one. -/
inductive Spaced : List Char → List Char → Prop
  | nil : Spaced [] []
  | insert {c : Char} {cs ds : List Char} : isBlank c → Spaced cs ds → Spaced cs (c :: ds)
  | blank {c : Char} {cs ds : List Char} : isBlank c → Spaced cs ds → Spaced (c :: cs) (c :: ds)
  | lexeme {w cs ds : List Char} {t : Token} : Spells w t → Longest w cs → Spaced cs ds →
    Spaced (w ++ cs) (w ++ ds)

variable {cs ds u v w : List Char}

theorem Spaced.prefix_of_not_blank (h : Spaced cs ds) (hu : ∀ c ∈ u, isBlank c = false)
    (hpart : u <+: ds) : u <+: cs := by
  have hnil : ∀ {c : Char} {u ds : List Char}, isBlank c → (∀ c ∈ u, isBlank c = false) →
      u <+: c :: ds → u = [] := by
    intro c u ds hc hu hpart
    cases u with
    | nil => rfl
    | cons d u =>
        obtain rfl := (List.cons_prefix_cons.mp hpart).1
        cases hc.symm.trans (hu d List.mem_cons_self)
  induction h generalizing u with
  | nil => exact hpart
  | insert hc _ _ | blank hc _ _ =>
      rw [hnil hc hu hpart]
      exact List.nil_prefix
  | @lexeme w cs ds t _ _ _ ih =>
      rcases prefix_append_cases hpart with hle | ⟨u, rfl, hmore⟩
      · exact hle.trans (List.prefix_append w cs)
      · rw [List.prefix_append_right_inj]
        exact ih (fun c hc => hu c (List.mem_append_right w hc)) hmore

/-- The longest lexeme stays the longest one. -/
theorem Spaced.longest (h : Spaced cs ds) (hlongest : Longest w cs) : Longest w ds := by
  intro v hv hpart
  rcases prefix_append_cases hpart with hle | ⟨u, rfl, hmore⟩
  · exact hle.length_le
  · apply hlongest _ hv
    rw [List.prefix_append_right_inj]
    exact h.prefix_of_not_blank
      (fun c hc => hv.isBlank_eq_false c (List.mem_append_right w hc)) hmore

/-- Both texts are tiled, with the same tokens. -/
theorem Spaced.exists_tiling (h : Spaced cs ds) (offset offset' : Nat) : ∃ ps qs,
    Tiling [] offset cs ps ∧ Tiling [] offset' ds qs ∧
      qs.map Placed.token = ps.map Placed.token := by
  induction h generalizing offset offset' with
  | nil => exact ⟨[], [], .nil offset, .nil offset', rfl⟩
  | @insert c cs ds hc _ ih =>
      obtain ⟨ps, qs, hps, hqs, hsame⟩ := ih offset (offset' + c.utf8Size)
      exact ⟨ps, qs, hps, .blank hc hqs, hsame⟩
  | @blank c cs ds hc _ ih =>
      obtain ⟨ps, qs, hps, hqs, hsame⟩ := ih (offset + c.utf8Size) (offset' + c.utf8Size)
      exact ⟨ps, qs, .blank hc hps, .blank hc hqs, hsame⟩
  | @lexeme w cs ds t hw hlongest hspaced ih =>
      obtain ⟨ps, qs, hps, hqs, hsame⟩ := ih (offset + byteLength w) (offset' + byteLength w)
      have hlongest' : Longest w ds := hspaced.longest hlongest
      rw [← List.append_nil cs] at hlongest
      rw [← List.append_nil ds] at hlongest'
      refine ⟨_, _, .lexeme hw hlongest hps, .lexeme hw hlongest' hqs, ?_⟩
      rw [List.map_cons, List.map_cons, hsame]

/-- Tokens that are the same up to their offsets are the same tokens moved. -/
theorem exists_relocate {ps qs : List Placed} (hoffsets : (ps.map Placed.offset).Pairwise (· < ·))
    (h : qs.map Placed.token = ps.map Placed.token) :
    ∃ move, qs = ps.map (Placed.relocate move) := by
  induction ps generalizing qs with
  | nil => exact ⟨id, List.map_eq_nil_iff.mp h⟩
  | cons p ps ih =>
      rw [List.map_cons, List.pairwise_cons] at hoffsets
      obtain ⟨q, qs, rfl, htoken, hrest⟩ := List.map_eq_cons_iff.mp h
      obtain ⟨move, rfl⟩ := ih hoffsets.2 hrest
      refine ⟨fun n => if n = p.offset then q.offset else move n, ?_⟩
      rw [List.map_cons, Placed.relocate, if_pos rfl, ← htoken]
      refine congrArg _ (List.map_congr_left fun r hr => ?_)
      have hlater := hoffsets.1 _ (List.mem_map_of_mem hr)
      rw [Placed.relocate, Placed.relocate, if_neg (by omega)]

end Token

/-! ### Sources -/

/-- The same error at another offset. -/
def FormulaError.relocate (move : Nat → Nat) : FormulaError → FormulaError
  | parse error => parse (error.relocate move)
  | compile error => compile error

namespace Token

variable {source spaced : String}

theorem Spaced.exists_scan (h : Spaced source.toList spaced.toList) :
    ∃ ps move, scan source = .ok ps ∧ scan spaced = .ok (ps.map (Placed.relocate move)) := by
  obtain ⟨ps, qs, hps, hqs, hsame⟩ := h.exists_tiling 0 0
  obtain ⟨move, rfl⟩ := exists_relocate hps.pairwise_offset hsame
  exact ⟨ps, move, scan_eq_ok_iff.mpr hps, scan_eq_ok_iff.mpr hqs⟩

section

variable {ps : List Placed} {move : Nat → Nat}

theorem parse_relocate (hsource : scan source = .ok ps)
    (hspaced : scan spaced = .ok (ps.map (Placed.relocate move))) (schema : Schema) :
    Expr.parse schema spaced =
      (Expr.parse schema source).mapError (ParseError.relocate move) := by
  have hread : ∀ {source : String} {ps : List Placed}, scan source = .ok ps →
      Expr.parse schema source = Expr.ofTokens schema ps := by
    intro source ps h
    rw [Expr.parse, h]
    rfl
  rw [hread hsource, hread hspaced, Expr.ofTokens_relocate]

variable [Arithmetic]

/-- **White space between tokens is irrelevant**: wherever it is put in, a source has the same
tokens, moved to other offsets.  The same tree is read, or the same error found at the same token;
the program has the same code, needs as much room on the stack and answers every call alike. -/
theorem spacing_irrelevant (h : Spaced source.toList spaced.toList) : ∃ ps move,
    scan source = .ok ps ∧ scan spaced = .ok (ps.map (Placed.relocate move)) ∧
    ∀ schema,
      Expr.parse schema spaced =
        (Expr.parse schema source).mapError (ParseError.relocate move) ∧
      (∀ error, Program.ofFormula schema source = .error error →
        Program.ofFormula schema spaced = .error (error.relocate move)) ∧
      ∀ p, Program.ofFormula schema source = .ok p → ∃ q,
        Program.ofFormula schema spaced = .ok q ∧ q.code = p.code ∧ q.maxStack = p.maxStack ∧
        ∀ args stack, q.call args stack = p.call args stack := by
  obtain ⟨ps, move, hsource, hspaced⟩ := h.exists_scan
  refine ⟨ps, move, hsource, hspaced, fun schema => ?_⟩
  have hparse := parse_relocate hsource hspaced schema
  refine ⟨hparse, fun error herror => ?_, fun p hp => ?_⟩
  · rw [Program.ofFormula_eq] at herror
    rw [Program.ofFormula_eq, hparse]
    cases hread : Expr.parse schema source with
    | error cause =>
        rw [hread] at herror
        cases herror
        rfl
    | ok e =>
        rw [hread] at herror
        cases herror
  · rw [Program.ofFormula_eq] at hp
    rw [Program.ofFormula_eq, hparse]
    cases hread : Expr.parse schema source with
    | error cause =>
        rw [hread] at hp
        cases hp
    | ok e =>
        rw [hread] at hp
        cases hp
        exact ⟨_, rfl, rfl, rfl, fun _ _ => rfl⟩

end

/-- The theorem at `2e-x`, where the number is parted from the name that could begin its
exponent. -/
theorem spacing_irrelevant_two_e :
    let source := "2e-x"
    let spaced := "2 e-\u00A0x "
    Spaced source.toList spaced.toList ∧ ∃ ps move,
      scan source = .ok ps ∧ scan spaced = .ok (ps.map (Placed.relocate move)) ∧
      ∀ schema,
        Expr.parse schema spaced =
          (Expr.parse schema source).mapError (ParseError.relocate move) ∧
        (∀ error, Program.ofFormula schema source = .error error →
          Program.ofFormula schema spaced = .error (error.relocate move)) ∧
        ∀ p, Program.ofFormula schema source = .ok p → ∃ q,
          Program.ofFormula schema spaced = .ok q ∧ q.code = p.code ∧ q.maxStack = p.maxStack ∧
          ∀ args stack, q.call args stack = p.call args stack := by
  intro source spaced
  have hsource : source.toList = ['2', 'e', '-', 'x'] := by cbv
  have hspaced : spaced.toList = ['2', ' ', 'e', '-', '\u00A0', 'x', ' '] := by cbv
  have htwo : Spells ['2'] (.number (.ofDecimal _ ⟨2, 0⟩)) :=
    .number (m := ['2']) ⟨List.cons_ne_nil _ _, by simp⟩ .none
      ⟨⟨'2', List.mem_cons_self, rfl⟩, by decide⟩ rfl
  have h : Spaced source.toList spaced.toList := by
    rw [hsource, hspaced]
    have hend : Spaced ['x'] ['x', ' '] :=
      .lexeme (spells_letter (c := 'x') rfl)
        (fun v hv hpart => (hv.prefix_namePart (c := 'x') rfl hpart).length_le)
        (.insert rfl .nil)
    have hminus : Spaced ['-', 'x'] ['-', '\u00A0', 'x', ' '] :=
      .lexeme (.symbol (c := '-') rfl) (longest_symbol rfl _) (.insert rfl hend)
    have he : Spaced ['e', '-', 'x'] ['e', '-', '\u00A0', 'x', ' '] :=
      .lexeme (spells_letter (c := 'e') rfl)
        (fun v hv hpart => (hv.prefix_namePart (c := 'e') rfl hpart).length_le) hminus
    exact .lexeme htwo
      (fun v hv hpart => (hv.prefix_numeralPart (c := '2') rfl hpart).length_le)
      (.insert rfl he)
  exact ⟨h, spacing_irrelevant h⟩

end Token

end PenFilter
