import PenFilter.Proofs.Json.Literal

/-! # JSON comes back from its text

Between a value and its text stand the tokens of the value (`Json.tokens`).  The text is cut into
these tokens whatever follows it (`Json.Spells`), and the tokens are put together to the value again
whatever is still open around it (`Json.foldlM_tokens`).  So a value is read back from its text
(`Json.read?_compact`), provided that its numbers are literals and its strings are texts
(`Json.Writable`). -/

namespace PenFilter

namespace Json

/-! ### Values and their tokens -/

mutual

/-- All numbers are literals and all strings are texts. -/
def Writable : Json → Prop
  | null | bool _ => True
  | number literal => Literal literal
  | string s => s.isSome
  | array items => WritableItems items
  | object members => WritableMembers members

def WritableItems : List Json → Prop
  | [] => True
  | v :: vs => Writable v ∧ WritableItems vs

def WritableMembers : List (Option String × Json) → Prop
  | [] => True
  | (key, v) :: ms => key.isSome ∧ Writable v ∧ WritableMembers ms

end

mutual

/-- The tokens of a value, in their order. -/
def tokens : Json → List Token
  | null => [.null]
  | bool b => [.bool b]
  | number literal => [.number literal]
  | string s => [.string s]
  | array items => .openArray :: [Token.comma].intercalate (itemTokens items) ++ [.closeArray]
  | object members =>
    .openObject :: [Token.comma].intercalate (memberTokens members) ++ [.closeObject]

def itemTokens : List Json → List (List Token)
  | [] => []
  | v :: vs => tokens v :: itemTokens vs

def memberTokens : List (Option String × Json) → List (List Token)
  | [] => []
  | (key, v) :: ms => (.string key :: .colon :: tokens v) :: memberTokens ms

end

/-! ### Strings -/

theorem stringBody?_control {c : Char} (hc : c.toNat < 0x20) (rest : List Char) :
    stringBody? (['\\', 'u'] ++ List.replicate (4 - (hexText c.toNat).length) '0' ++
        hexText c.toNat ++ rest) =
      (stringBody? rest).map fun p => (.inr c.toNat :: p.1, p.2) := by
  have hcode : ∀ n < 0x20, ∃ a b, List.replicate (4 - (hexText n).length) '0' ++ hexText n =
      ['0', '0', a, b] ∧ hexNumber? ['0', '0', a, b] = some n := by
    intro n hn
    interval_cases n <;> exact ⟨_, _, rfl, rfl⟩
  obtain ⟨a, b, htext, hnumber⟩ := hcode c.toNat hc
  rw [List.append_assoc ['\\', 'u'], htext]
  simp only [List.cons_append, List.nil_append, stringBody?, hnumber]
  cases stringBody? rest with
  | none => rfl
  | some p => rfl

theorem joinUnits?_of_lt {n : Nat} (hn : n < 0xD800) (units : List (Char ⊕ Nat)) :
    joinUnits? (.inr n :: units) = (joinUnits? units).map (Char.ofNat n :: ·) := by
  have hhigh : isHighSurrogate n = false := by
    unfold isHighSurrogate
    simp only [Bool.and_eq_false_iff, decide_eq_false_iff_not]
    omega
  have hlow : isLowSurrogate n = false := by
    unfold isLowSurrogate
    simp only [Bool.and_eq_false_iff, decide_eq_false_iff_not]
    omega
  match units with
  | [] | .inl c :: units | .inr l :: units => simp [joinUnits?, hhigh, hlow]

/-- A character of a string is written so that it is read as one unit, which stands for it. -/
theorem exists_unit (c : Char) : ∃ u : Char ⊕ Nat,
    (∀ rest, stringBody? (escapedChar c ++ rest) =
      (stringBody? rest).map fun p => (u :: p.1, p.2)) ∧
    ∀ units, joinUnits? (u :: units) = (joinUnits? units).map (c :: ·) := by
  unfold escapedChar
  split_ifs with hquote hbackslash hb hf hn hr ht hcontrol
  iterate 7
    · subst c
      refine ⟨.inl _, fun rest => ?_, fun _ => rfl⟩
      cases h : stringBody? rest <;> simp [stringBody?, escape?, h]
  · refine ⟨.inr c.toNat, stringBody?_control hcontrol, fun units => ?_⟩
    rw [joinUnits?_of_lt (by omega), Char.ofNat_toNat]
  · refine ⟨.inl c, fun rest => ?_, fun _ => rfl⟩
    rw [List.singleton_append, stringBody?]
    · cases h : stringBody? rest <;> simp [hcontrol, hbackslash]
    · exact hquote
    · exact fun _ _ _ _ _ heq _ => hbackslash heq
    · exact fun _ _ heq _ => hbackslash heq

theorem stringBody?_text (cs rest : List Char) :
    ∃ units, stringBody? (cs.flatMap escapedChar ++ '\"' :: rest) = some (units, rest) ∧
      joinUnits? units = some cs := by
  induction cs with
  | nil => exact ⟨[], rfl, rfl⟩
  | cons c cs ih =>
      obtain ⟨units, hread, hjoin⟩ := ih
      obtain ⟨u, hu, hc⟩ := exists_unit c
      refine ⟨u :: units, ?_, by rw [hc, hjoin, Option.map_some]⟩
      rw [List.flatMap_cons, List.append_assoc, hu, hread, Option.map_some]

theorem front?_stringText (s : String) (rest : List Char) :
    front? (stringText (some s) ++ rest) = some (.string (some s), rest) := by
  obtain ⟨units, hread, hjoin⟩ := stringBody?_text s.toList rest
  show front? ('\"' :: (s.toList.flatMap escapedChar ++ ['\"'] ++ rest)) = _
  rw [List.append_assoc, List.singleton_append, front?, hread]
  simp [hjoin]

/-! ### Texts and tokens -/

theorem scanFrom?_drop (k : Nat) (cs : List Char) : scanFrom? k cs = scan? (cs.drop k) := by
  induction cs generalizing k with
  | nil => simp [scan?, scanFrom?]
  | cons c cs ih =>
      cases k with
      | zero => rfl
      | succ k => rw [scanFrom?, ih, List.drop_succ_cons]

theorem scan?_of_front? {c : Char} {lexeme rest : List Char} {t : Token}
    (hspace : isSpace c = false) (h : front? (c :: lexeme ++ rest) = some (t, rest)) :
    scan? (c :: lexeme ++ rest) = (scan? rest).map (t :: ·) := by
  rw [List.cons_append] at h ⊢
  rw [scan?, scanFrom?, hspace, h]
  have hrest : (lexeme ++ rest).drop ((lexeme ++ rest).length - rest.length) = rest := by
    rw [List.length_append, Nat.add_sub_cancel, List.drop_left]
  simp only [Bool.false_eq_true, if_false, Option.bind_eq_bind, Option.bind_some, scanFrom?_drop,
    hrest]
  cases scan? rest <;> rfl

/-- The text is cut into the tokens whatever follows it, if this is not the rest of a number. -/
def Spells (cs : List Char) (ts : List Token) : Prop :=
  ∀ rest us, EndsNumber rest → scan? rest = some us → scan? (cs ++ rest) = some (ts ++ us)

theorem EndsNumber.append {cs rest : List Char} (hcs : EndsNumber cs) (hrest : EndsNumber rest) :
    EndsNumber (cs ++ rest) := by
  cases cs with
  | nil => exact hrest
  | cons c cs => exact hcs

theorem endsNumber_cons {c : Char} (h : c.isDigit = false ∧ c ≠ '.' ∧ c ≠ 'e' ∧ c ≠ 'E')
    (cs : List Char) : EndsNumber (c :: cs) := by
  rintro _ ⟨⟩
  exact h

theorem spells_nil : Spells [] [] := fun _ _ _ h => h

theorem Spells.append {cs ds : List Char} {ts us : List Token} (h : Spells cs ts)
    (hmore : Spells ds us) (hends : EndsNumber ds) : Spells (cs ++ ds) (ts ++ us) := by
  intro rest vs hrest hscan
  rw [List.append_assoc, List.append_assoc]
  exact h _ _ (hends.append hrest) (hmore rest vs hrest hscan)

/-- A token whose end is known without what follows. -/
theorem Spells.front {c : Char} {cs : List Char} {t : Token} {ts : List Token}
    (h : Spells cs ts) (lexeme : List Char) (hspace : isSpace c = false)
    (hfront : ∀ rest, front? (c :: lexeme ++ rest) = some (t, rest)) :
    Spells (c :: lexeme ++ cs) (t :: ts) := by
  intro rest us hrest hscan
  rw [List.append_assoc, scan?_of_front? hspace (hfront _), h rest us hrest hscan]
  rfl

theorem Spells.symbol {c : Char} {cs : List Char} {t : Token} {ts : List Token}
    (h : Spells cs ts) (hspace : isSpace c = false)
    (hfront : ∀ rest, front? (c :: rest) = some (t, rest)) : Spells (c :: cs) (t :: ts) :=
  h.front [] hspace hfront

theorem Spells.string {cs : List Char} {ts : List Token} (h : Spells cs ts) (s : String) :
    Spells (stringText (some s) ++ cs) (.string (some s) :: ts) :=
  h.front _ rfl (front?_stringText s)

/-- No other token begins as a number does. -/
theorem front?_of_starts {c : Char} (hc : c = '-' ∨ c.isDigit) (cs : List Char) :
    front? (c :: cs) = (numberLiteral? (c :: cs)).map fun p => (.number p.1, p.2) := by
  unfold front?
  split
  case h_11 => rfl
  all_goals
    rename_i heq
    rw [(List.cons.inj heq).1] at hc
    exact absurd hc (by decide)

theorem spells_literal {literal : List Char} (h : Literal literal) :
    Spells literal [.number literal] := by
  intro rest us hrest hscan
  obtain ⟨c, hc, hstart⟩ := h.head?
  obtain ⟨cs, rfl⟩ := List.head?_eq_some_iff.mp hc
  have hspace : isSpace c = false := by
    rcases hstart with rfl | hdigit
    · rfl
    · unfold isSpace
      rw [Bool.eq_false_iff]
      intro hblank
      simp only [Bool.or_eq_true, beq_iff_eq] at hblank
      rcases hblank with ((rfl | rfl) | rfl) | rfl <;> cases hdigit
  have hfront : front? (c :: cs ++ rest) = some (.number (c :: cs), rest) := by
    rw [List.cons_append, front?_of_starts hstart, ← List.cons_append,
      h.numberLiteral?_append hrest]
    rfl
  rw [scan?_of_front? hspace hfront, hscan]
  rfl

/-- Texts with commas between them are cut into their tokens, and the commas. -/
theorem spells_separated (separator : List Char) {texts : List (List Char)}
    {tokens : List (List Token)} (h : List.Forall₂ Spells texts tokens)
    (hseparator : ∀ {cs ts}, Spells cs ts → Spells (separator ++ cs) (.comma :: ts))
    (hends : ∀ cs, EndsNumber (separator ++ cs)) :
    Spells (separated separator texts) ([Token.comma].intercalate tokens) := by
  induction h with
  | nil => exact spells_nil
  | @cons cs ts texts tokens hfirst hrest ih =>
      cases hrest with
      | nil =>
          rw [List.intercalate_singleton]
          exact hfirst
      | cons hsecond hrest =>
          rw [List.intercalate_cons_cons, separated, List.append_assoc, List.append_assoc]
          · exact hfirst.append (hseparator ih) (hends _)
          · exact nofun

mutual

/-- The text of a value is cut into its tokens. -/
theorem spells_compactChars (v : Json) (hv : v.Writable) : Spells v.compactChars v.tokens := by
  match v with
  | null => exact spells_nil.front ['u', 'l', 'l'] rfl fun _ => rfl
  | bool true => exact spells_nil.front ['r', 'u', 'e'] rfl fun _ => rfl
  | bool false => exact spells_nil.front ['a', 'l', 's', 'e'] rfl fun _ => rfl
  | number literal => exact spells_literal hv
  | string (some s) =>
      have h := spells_nil.string s
      rwa [List.append_nil] at h
  | array items =>
      have hitems := spells_separated [','] (spells_compactItems items hv)
        (fun h => h.symbol rfl fun _ => rfl) fun _ => endsNumber_cons (by decide) _
      have hclose : Spells [']'] [.closeArray] := spells_nil.symbol rfl fun _ => rfl
      exact (hitems.append hclose (endsNumber_cons (by decide) _)).symbol rfl fun _ => rfl
  | object members =>
      have hmembers := spells_separated [','] (spells_compactMembers members hv)
        (fun h => h.symbol rfl fun _ => rfl) fun _ => endsNumber_cons (by decide) _
      have hclose : Spells ['\x7d'] [.closeObject] := spells_nil.symbol rfl fun _ => rfl
      exact (hmembers.append hclose (endsNumber_cons (by decide) _)).symbol rfl fun _ => rfl

theorem spells_compactItems (items : List Json) (hitems : WritableItems items) :
    List.Forall₂ Spells (compactItems items) (itemTokens items) := by
  match items with
  | [] => exact .nil
  | v :: vs => exact .cons (spells_compactChars v hitems.1) (spells_compactItems vs hitems.2)

theorem spells_compactMembers (members : List (Option String × Json))
    (hmembers : WritableMembers members) :
    List.Forall₂ Spells (compactMembers members) (memberTokens members) := by
  match members with
  | [] => exact .nil
  | (some key, v) :: ms =>
      have hvalue : Spells (':' :: v.compactChars) (.colon :: v.tokens) :=
        (spells_compactChars v hmembers.2.1).symbol rfl fun _ => rfl
      exact .cons (hvalue.string key) (spells_compactMembers ms hmembers.2.2)

end

/-! ### Tokens and values -/

/-- A value may begin, in the frames that are open; an array may end, too. -/
def State.Expects (s : State) (frames : List Frame) : Prop :=
  ∀ t, t ≠ .closeArray → s.step? t = State.open? frames t

theorem State.expects_value (frames : List Frame) : (State.value frames).Expects frames :=
  fun _ _ => rfl

theorem State.expects_arrayStart (frames : List Frame) :
    (State.arrayStart frames).Expects (.array [] :: frames) := by
  intro t ht
  cases t with
  | closeArray => exact absurd rfl ht
  | _ => rfl

mutual

/-- The tokens of a value are put together to the value, whatever is still open around it. -/
theorem foldlM_tokens (v : Json) {s : State} {frames : List Frame} (hs : s.Expects frames)
    (rest : List Token) :
    (v.tokens ++ rest).foldlM State.step? s = rest.foldlM State.step? (.done v frames) := by
  match v with
  | null | bool b | number literal | string text =>
      rw [tokens, List.singleton_append, List.foldlM_cons, hs _ (by simp)]
      rfl
  | array items =>
      rw [tokens, List.cons_append, List.cons_append, List.foldlM_cons, hs _ (by simp),
        List.append_assoc]
      by_cases hempty : items = []
      · rw [hempty]
        rfl
      · exact foldlM_itemTokens items hempty (State.expects_arrayStart frames) rest
  | object members =>
      rw [tokens, List.cons_append, List.cons_append, List.foldlM_cons, hs _ (by simp),
        List.append_assoc]
      by_cases hempty : members = []
      · rw [hempty]
        rfl
      · exact foldlM_memberTokens members hempty (s := .objectStart frames) (fun _ => rfl) rest

/-- The items of an array are put behind those that were read before. -/
theorem foldlM_itemTokens (items : List Json) (hitems : items ≠ []) {before : List Json}
    {s : State} {frames : List Frame} (hs : s.Expects (.array before :: frames))
    (rest : List Token) :
    ([Token.comma].intercalate (itemTokens items) ++ ([Token.closeArray] ++ rest)).foldlM
        State.step? s =
      rest.foldlM State.step? (.done (.array (before ++ items)) frames) := by
  match items with
  | [] => exact absurd rfl hitems
  | v :: vs =>
      by_cases hlast : vs = []
      · rw [hlast, itemTokens, itemTokens, List.intercalate_singleton, foldlM_tokens v hs]
        rfl
      · have htokens : itemTokens vs ≠ [] := by
          cases vs with
          | nil => exact absurd rfl hlast
          | cons w vs => exact nofun
        -- behind the comma comes the next item, with one more read before it
        rw [itemTokens, List.intercalate_cons_of_ne_nil htokens, List.append_assoc,
          List.append_assoc, foldlM_tokens v hs, List.append_cons before]
        exact foldlM_itemTokens vs hlast (State.expects_value (.array (before ++ [v]) :: frames))
          rest

theorem foldlM_memberTokens (members : List (Option String × Json)) (hmembers : members ≠ [])
    {before : List (Option String × Json)} {s : State} {frames : List Frame}
    (hs : ∀ key, s.step? (.string key) = some (.colon before key frames)) (rest : List Token) :
    ([Token.comma].intercalate (memberTokens members) ++ ([Token.closeObject] ++ rest)).foldlM
        State.step? s =
      rest.foldlM State.step? (.done (.object (before ++ members)) frames) := by
  match members with
  | [] => exact absurd rfl hmembers
  | (key, v) :: ms =>
      have hvalue := State.expects_value (.object before key :: frames)
      by_cases hlast : ms = []
      · rw [hlast, memberTokens, memberTokens, List.intercalate_singleton, List.cons_append,
          List.cons_append, List.foldlM_cons, hs]
        show (v.tokens ++ _).foldlM State.step? (.value (.object before key :: frames)) = _
        rw [foldlM_tokens v hvalue]
        rfl
      · have htokens : memberTokens ms ≠ [] := by
          cases ms with
          | nil => exact absurd rfl hlast
          | cons m ms => exact nofun
        rw [memberTokens, List.intercalate_cons_of_ne_nil htokens, List.append_assoc,
          List.append_assoc, List.cons_append, List.cons_append, List.foldlM_cons, hs]
        show (v.tokens ++ _).foldlM State.step? (.value (.object before key :: frames)) = _
        rw [foldlM_tokens v hvalue, List.append_cons before]
        exact foldlM_memberTokens ms hlast (s := .key (before ++ [(key, v)]) frames)
          (fun _ => rfl) rest

end

theorem ofTokens?_tokens (v : Json) : ofTokens? v.tokens = some v := by
  have h := foldlM_tokens v (State.expects_value []) []
  rw [List.append_nil] at h
  rw [ofTokens?, h]
  rfl

/-- **A value comes back from its text.** -/
theorem read?_compact {v : Json} (hv : v.Writable) : read? v.compact = some v := by
  have hscan := spells_compactChars v hv [] [] nofun rfl
  rw [List.append_nil, List.append_nil] at hscan
  rw [read?, compact, String.toList_ofList, hscan]
  exact ofTokens?_tokens v

/-! ### Texts on one line -/

theorem newline_notMem_escapedChar (c : Char) : '\n' ∉ escapedChar c := by
  unfold escapedChar
  split_ifs with hquote hbackslash hb hf hn hr ht hcontrol
  iterate 7 · decide
  · have hcode : ∀ n < 0x20, '\n' ∉ ['\\', 'u'] ++
        List.replicate (4 - (hexText n).length) '0' ++ hexText n := by
      decide
    exact hcode c.toNat hcontrol
  · rw [List.mem_singleton]
    exact Ne.symm hn

theorem newline_notMem_stringText (s : Option String) : '\n' ∉ stringText s := by
  simp [stringText, newline_notMem_escapedChar]

theorem newline_notMem_separated {texts : List (List Char)} (h : ∀ cs ∈ texts, '\n' ∉ cs) :
    '\n' ∉ separated [','] texts := by
  induction texts with
  | nil => exact List.not_mem_nil
  | cons cs texts ih =>
      rw [List.forall_mem_cons] at h
      cases texts with
      | nil => exact h.1
      | cons ds texts =>
          rw [separated]
          · simp [h.1, ih h.2]
          · exact nofun

mutual

theorem newline_notMem_compactChars (v : Json) (hv : v.Writable) : '\n' ∉ v.compactChars := by
  match v with
  | null | bool true | bool false => decide
  | number literal => exact Literal.newline_notMem hv
  | string s => exact newline_notMem_stringText s
  | array items =>
      simp [compactChars, newline_notMem_separated (newline_notMem_compactItems items hv)]
  | object members =>
      simp [compactChars, newline_notMem_separated (newline_notMem_compactMembers members hv)]

theorem newline_notMem_compactItems (items : List Json) (hitems : WritableItems items) :
    ∀ cs ∈ compactItems items, '\n' ∉ cs := by
  match items with
  | [] => exact nofun
  | v :: vs =>
      rw [compactItems, List.forall_mem_cons]
      exact ⟨newline_notMem_compactChars v hitems.1, newline_notMem_compactItems vs hitems.2⟩

theorem newline_notMem_compactMembers (members : List (Option String × Json))
    (hmembers : WritableMembers members) : ∀ cs ∈ compactMembers members, '\n' ∉ cs := by
  match members with
  | [] => exact nofun
  | (key, v) :: ms =>
      rw [compactMembers, List.forall_mem_cons]
      refine ⟨?_, newline_notMem_compactMembers ms hmembers.2.2⟩
      simp [newline_notMem_stringText, newline_notMem_compactChars v hmembers.2.1]

end

end Json

end PenFilter
