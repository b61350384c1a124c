import PenFilter.Proofs.Formula.Grammar

/-! # What a reader passes over

`Cursor.Reaches c ts k d` says that the tokens between the cursors `c` and `d` are `ts` and that
`k` operators and calls have been counted on the way.  What a reader of the parser does is said
with this relation.

The relation composes (`Cursor.Reaches.trans`), can be cut at any place
(`Cursor.Reaches.split`), and fixes the cursor it leads to (`Cursor.Reaches.unique`). -/

namespace PenFilter

theorem bind_eq_ok_iff {ε α β : Type} {x : Except ε α} {f : α → Except ε β} {b : β} :
    (x >>= f) = .ok b ↔ ∃ a, x = .ok a ∧ f a = .ok b := by
  cases x with
  | error e => simp [bind, Except.bind]
  | ok a => simp [bind, Except.bind]

namespace Cursor

/-- The tokens from a place on. -/
def tokens (c : Cursor) : List Token := c.rest.map Placed.token

/-- The tokens `ts` and `k` operators and calls lie between `c` and `d`. -/
structure Reaches (c : Cursor) (ts : List Token) (k : Nat) (d : Cursor) : Prop where
  rest : ∃ ps, c.rest = ps ++ d.rest ∧ ps.map Placed.token = ts
  previous : d.previous = ts.getLast?.or c.previous
  budget : c.budget = d.budget + k

namespace Reaches

variable {c d e : Cursor} {ts us : List Token} {k l : Nat}

theorem refl (c : Cursor) : c.Reaches [] 0 c := ⟨⟨[], rfl, rfl⟩, rfl, rfl⟩

theorem trans (h : c.Reaches ts k d) (h' : d.Reaches us l e) :
    c.Reaches (ts ++ us) (k + l) e := by
  obtain ⟨⟨ps, hps, rfl⟩, hprev, hbudget⟩ := h
  obtain ⟨⟨qs, hqs, rfl⟩, hprev', hbudget'⟩ := h'
  refine ⟨⟨ps ++ qs, ?_, List.map_append⟩, ?_, by omega⟩
  · rw [hps, hqs, List.append_assoc]
  · rw [hprev', hprev, List.getLast?_append, Option.or_assoc]

theorem tokens_eq (h : c.Reaches ts k d) : c.tokens = ts ++ d.tokens := by
  obtain ⟨ps, hps, rfl⟩ := h.rest
  rw [tokens, hps, List.map_append, tokens]

theorem previous_eq (h : c.Reaches ts k d) (hts : ts ≠ []) : d.previous = ts.getLast? := by
  rw [h.previous, List.getLast?_eq_some_getLast hts, Option.some_or]

theorem length_eq (h : c.Reaches ts k d) : c.rest.length = ts.length + d.rest.length := by
  obtain ⟨ps, hps, rfl⟩ := h.rest
  rw [hps, List.length_append, List.length_map]

theorem unique (h : c.Reaches ts k d) (h' : c.Reaches ts k e) : d = e := by
  obtain ⟨⟨ps, hps, rfl⟩, hprev, hbudget⟩ := h
  obtain ⟨⟨qs, hqs, hmap⟩, hprev', hbudget'⟩ := h'
  have hlen : ps.length = qs.length := by
    rw [← List.length_map Placed.token, ← hmap, List.length_map]
  have hrest : d.rest = e.rest := (List.append_inj (hps.symm.trans hqs) hlen).2
  cases d
  cases e
  simp only [Cursor.mk.injEq]
  exact ⟨hprev.trans hprev'.symm, hrest, by simp only at hbudget hbudget'; omega⟩

/-- A way of reading can be interrupted anywhere. -/
theorem split (h : c.Reaches (ts ++ us) (k + l) e) :
    ∃ d, c.Reaches ts k d ∧ d.Reaches us l e := by
  obtain ⟨⟨ps, hps, hmap⟩, hprev, hbudget⟩ := h
  obtain ⟨qs, rs, rfl, rfl, rfl⟩ := List.map_eq_append_iff.mp hmap
  refine ⟨⟨(qs.map Placed.token).getLast?.or c.previous, rs ++ e.rest, e.budget + l⟩, ?_, ?_⟩
  · exact ⟨⟨qs, by rw [hps, List.append_assoc], rfl⟩, rfl, by simp only; omega⟩
  · refine ⟨⟨rs, rfl, rfl⟩, ?_, rfl⟩
    rw [hprev, List.getLast?_append, Option.or_assoc]

end Reaches

/-! ### Single steps -/

theorem peek?_eq (c : Cursor) : c.peek? = c.tokens.head? := by
  rw [peek?, tokens, List.head?_map]

theorem rest_of_peek? {c : Cursor} {t : Token} (h : c.peek? = some t) :
    ∃ offset rest, c.rest = ⟨t, offset⟩ :: rest := by
  obtain ⟨⟨t', offset⟩, hhead, rfl⟩ := Option.map_eq_some_iff.mp h
  obtain ⟨rest, hrest⟩ := List.head?_eq_some_iff.mp hhead
  exact ⟨offset, rest, hrest⟩

theorem reaches_advance {c : Cursor} {t : Token} (h : c.peek? = some t) :
    c.Reaches [t] 0 c.advance := by
  obtain ⟨previous, rest, budget⟩ := c
  cases rest with
  | nil => cases h
  | cons p rest =>
      cases h
      exact ⟨⟨[p], rfl, rfl⟩, rfl, rfl⟩

theorem reaches_count {c d : Cursor} (h : c.count = .ok d) : c.Reaches [] 1 d := by
  obtain ⟨previous, rest, budget⟩ := c
  cases budget with
  | zero => cases h
  | succ k =>
      cases h
      exact ⟨⟨[], rfl, rfl⟩, rfl, rfl⟩

theorem Reaches.cons {c d : Cursor} {t : Token} {ts : List Token} {k : Nat}
    (h : c.advance.Reaches ts k d) (hpeek : c.peek? = some t) : c.Reaches (t :: ts) k d := by
  have h' := (reaches_advance hpeek).trans h
  rwa [List.singleton_append, Nat.zero_add] at h'

theorem Reaches.counting {c d e : Cursor} {ts : List Token} {k : Nat}
    (h : d.Reaches ts k e) (hcount : c.count = .ok d) : c.Reaches ts (k + 1) e := by
  have h' := (reaches_count hcount).trans h
  rwa [List.nil_append, Nat.add_comm] at h'

theorem Reaches.tail {c d : Cursor} {t : Token} {ts : List Token} {k : Nat}
    (h : c.Reaches (t :: ts) k d) : c.peek? = some t ∧ c.advance.Reaches ts k d := by
  have hpeek : c.peek? = some t := by rw [peek?_eq, h.tokens_eq]; rfl
  have h' : c.Reaches ([t] ++ ts) (0 + k) d := by simpa using h
  obtain ⟨c₁, h₁, h₂⟩ := h'.split
  exact ⟨hpeek, (reaches_advance hpeek).unique h₁ ▸ h₂⟩

/-- What is counted on the way can be counted first. -/
theorem Reaches.counted {c d : Cursor} {ts : List Token} {k : Nat}
    (h : c.Reaches ts (k + 1) d) : ∃ c₁, c.count = .ok c₁ ∧ c₁.Reaches ts k d := by
  have h' : c.Reaches ([] ++ ts) (1 + k) d := by rwa [Nat.add_comm 1 k]
  obtain ⟨c₁, h₁, h₂⟩ := h'.split
  have hbudget : c.budget = c₁.budget + 1 := h₁.budget
  have hcount : c.count = .ok { c with budget := c₁.budget } := by simp only [count, hbudget]
  exact ⟨c₁, h₁.unique (reaches_count hcount) ▸ hcount, h₂⟩

/-- With enough tokens and enough budget every list of tokens can be passed over. -/
theorem exists_reaches {c : Cursor} {ts us : List Token} {k : Nat} (h : c.tokens = ts ++ us)
    (hk : k ≤ c.budget) : ∃ d, c.Reaches ts k d ∧ d.tokens = us := by
  obtain ⟨ps, qs, hrest, rfl, rfl⟩ := List.map_eq_append_iff.mp h
  refine ⟨⟨(ps.map Placed.token).getLast?.or c.previous, qs, c.budget - k⟩, ?_, rfl⟩
  exact ⟨⟨ps, hrest, rfl⟩, rfl, by simp only; omega⟩

end Cursor

end PenFilter
