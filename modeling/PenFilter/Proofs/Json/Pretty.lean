import PenFilter.Proofs.Json.Reader

/-! # JSON comes back from indented lines

White space between tokens is passed over, wherever it stands (`Json.Spells.blanks`).  So the text
on indented lines is cut into the same tokens as the text without white space, and a value is read
back from it (`Json.read?_pretty_append`), also when blanks follow it. -/

namespace PenFilter

namespace Json

/-! ### White space -/

theorem scan?_blanks {blanks : List Char} (hblanks : ∀ c ∈ blanks, isSpace c) (cs : List Char) :
    scan? (blanks ++ cs) = scan? cs := by
  induction blanks with
  | nil => rfl
  | cons c blanks ih =>
      rw [List.forall_mem_cons] at hblanks
      rw [← ih hblanks.2, List.cons_append, scan?, scanFrom?, if_pos hblanks.1]
      rfl

theorem Spells.blanks {blanks cs : List Char} {ts : List Token} (h : Spells cs ts)
    (hblanks : ∀ c ∈ blanks, isSpace c) : Spells (blanks ++ cs) ts := by
  intro rest us hrest hscan
  rw [List.append_assoc, scan?_blanks hblanks]
  exact h rest us hrest hscan

theorem isSpace_of_mem_newline {level : Nat} {c : Char} (hc : c ∈ newline level) : isSpace c := by
  unfold newline at hc
  rcases List.mem_cons.mp hc with rfl | hblank
  · rfl
  · rw [List.eq_of_mem_replicate hblank]
    rfl

theorem Spells.newline {cs : List Char} {ts : List Token} (h : Spells cs ts) (level : Nat) :
    Spells (newline level ++ cs) ts :=
  h.blanks fun _ => isSpace_of_mem_newline

/-! ### Values on lines -/

/-- Texts on lines of their own are cut into their tokens, with commas between them. -/
theorem spells_block (level : Nat) {first last : Char} {opening closing : Token}
    (hfirst : isSpace first = false ∧ ∀ rest, front? (first :: rest) = some (opening, rest))
    (hlast : isSpace last = false ∧ ∀ rest, front? (last :: rest) = some (closing, rest))
    {texts : List (List Char)} {tokens : List (List Token)} (h : List.Forall₂ Spells texts tokens) :
    Spells (block level first last texts)
      (opening :: [Token.comma].intercalate tokens ++ [closing]) := by
  have hclose : Spells [last] [closing] := spells_nil.symbol hlast.1 hlast.2
  unfold block
  split
  · next hempty =>
      cases h with
      | nil => exact hclose.symbol hfirst.1 hfirst.2
      | cons _ _ => cases hempty
  · have hitems : Spells (separated (',' :: newline (level + 1)) texts)
        ([Token.comma].intercalate tokens) :=
      spells_separated _ h (fun hmore => (hmore.newline (level + 1)).symbol rfl fun _ => rfl)
        fun _ => endsNumber_cons (by decide) _
    have hrest := (hitems.append (hclose.newline level) (endsNumber_cons (by decide) _)).newline
      (level + 1)
    have hblock := hrest.symbol hfirst.1 hfirst.2
    rwa [← List.append_assoc, ← List.append_assoc] at hblock

mutual

theorem spells_prettyChars (level : Nat) (v : Json) (hv : v.Writable) :
    Spells (v.prettyChars level) v.tokens := by
  match v with
  | null | bool b | number literal | string text => exact spells_compactChars _ hv
  | array items =>
      exact spells_block level ⟨rfl, fun _ => rfl⟩ ⟨rfl, fun _ => rfl⟩
        (spells_prettyItems (level + 1) items hv)
  | object members =>
      exact spells_block level ⟨rfl, fun _ => rfl⟩ ⟨rfl, fun _ => rfl⟩
        (spells_prettyMembers (level + 1) members hv)

theorem spells_prettyItems (level : Nat) (items : List Json) (hitems : WritableItems items) :
    List.Forall₂ Spells (prettyItems level items) (itemTokens items) := by
  match items with
  | [] => exact .nil
  | v :: vs =>
      exact .cons (spells_prettyChars level v hitems.1) (spells_prettyItems level vs hitems.2)

theorem spells_prettyMembers (level : Nat) (members : List (Option String × Json))
    (hmembers : WritableMembers members) :
    List.Forall₂ Spells (prettyMembers level members) (memberTokens members) := by
  match members with
  | [] => exact .nil
  | (some key, v) :: ms =>
      have hblank : ∀ c ∈ [' '], isSpace c := by simp [isSpace]
      have hvalue := (spells_prettyChars level v hmembers.2.1).blanks hblank
      have hcolon : Spells ([':', ' '] ++ v.prettyChars level) (.colon :: v.tokens) :=
        hvalue.symbol rfl fun _ => rfl
      have hmember := hcolon.string key
      rw [← List.append_assoc] at hmember
      exact .cons hmember (spells_prettyMembers level ms hmembers.2.2)

end

/-- **A value comes back from its indented text**, and from no less when blanks follow it. -/
theorem read?_pretty_append {v : Json} (hv : v.Writable) {blanks : String}
    (hblanks : ∀ c ∈ blanks.toList, isSpace c) : read? (v.pretty ++ blanks) = some v := by
  have hrest : scan? blanks.toList = some [] := by
    have h := scan?_blanks hblanks []
    rwa [List.append_nil] at h
  have hends : EndsNumber blanks.toList := by
    cases hcs : blanks.toList with
    | nil => exact nofun
    | cons c cs =>
        refine endsNumber_cons ?_ cs
        have hc := hblanks c (by rw [hcs]; exact List.mem_cons_self)
        unfold isSpace at hc
        simp only [Bool.or_eq_true, beq_iff_eq] at hc
        rcases hc with ((rfl | rfl) | rfl) | rfl <;> decide
  have hscan := spells_prettyChars 0 v hv _ [] hends hrest
  rw [List.append_nil] at hscan
  rw [read?, pretty, String.toList_append, String.toList_ofList, hscan]
  exact ofTokens?_tokens v

end Json

end PenFilter
