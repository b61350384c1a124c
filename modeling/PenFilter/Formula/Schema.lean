import PenFilter.Text.Quoted

/-! # Variable schemas

A `Schema` lists the variables that a formula may use, without repetition; the position of a
name is its slot.  `Schema.slotOf?_eq_some_iff` says that a name and its slot determine each
other. -/

namespace PenFilter

structure Schema where
  names : List String
  nodup : names.Nodup

namespace Schema

/-- `names` with `name` at the end, unless it is there already. -/
def insertName (names : List String) (name : String) : List String :=
  if name ∈ names then names else names ++ [name]

theorem nodup_insertName {names : List String} (h : names.Nodup) (name : String) :
    (insertName names name).Nodup := by
  unfold insertName
  split
  · exact h
  · rename_i hn
    refine List.nodup_append.2 ⟨h, by simp, ?_⟩
    intro a ha b hb
    simp only [List.mem_singleton] at hb
    rintro rfl
    exact hn (hb ▸ ha)

theorem nodup_foldl_insertName (names start : List String) (h : start.Nodup) :
    (names.foldl insertName start).Nodup := by
  induction names generalizing start with
  | nil => exact h
  | cons name names ih => exact ih _ (nodup_insertName h name)

/-- The schema of a list of names; a repeated name keeps its first place. -/
def ofList (names : List String) : Schema :=
  ⟨names.foldl insertName [], nodup_foldl_insertName names [] List.nodup_nil⟩

def size (s : Schema) : Nat := s.names.length

/-- The slot of a name. -/
def slotOf? (s : Schema) (name : String) : Option Nat := s.names.idxOf? name

/-- The name in a slot. -/
def nameAt? (s : Schema) (slot : Nat) : Option String := s.names[slot]?

def contains (s : Schema) (name : String) : Bool := (s.slotOf? name).isSome

theorem slotOf?_eq_some_iff {s : Schema} {name : String} {slot : Nat} :
    s.slotOf? name = some slot ↔ s.nameAt? slot = some name := by
  unfold slotOf? nameAt?
  rw [List.idxOf?, List.findIdx?_eq_some_iff_getElem, List.getElem?_eq_some_iff]
  constructor
  · rintro ⟨h, heq, _⟩
    exact ⟨h, by simpa using heq⟩
  · rintro ⟨h, rfl⟩
    refine ⟨h, by simp, ?_⟩
    intro j hj hne
    have hname : s.names[j] = s.names[slot] := by simpa using hne
    have := (List.getElem_inj s.nodup).1 hname
    omega

/-- The names in order, with a comma and a blank between them. -/
def text (s : Schema) : String := ", ".intercalate s.names

/-- The names in quotes. -/
def describe (s : Schema) : String := quotedList (s.names.map quoted)

end Schema

end PenFilter
