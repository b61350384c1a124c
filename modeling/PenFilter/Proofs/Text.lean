import Mathlib.Data.List.Basic
import Mathlib.Data.List.TakeWhile
import PenFilter.Text.Blank
import PenFilter.Text.Pieces

/-! # Texts and what stands at their ends

What is taken off the front of a text is known when the rest begins with another kind of character
(`span_append`).  `byteLength` counts the bytes of a text.  What is left of a text when it is
trimmed is known from its ends alone (`trimmed_eq_iff`), and the first piece of a text ends at its
first separator (`pieces_append`). -/

namespace PenFilter

theorem span_append {p : Char → Bool} {cs rest : List Char} (hcs : ∀ c ∈ cs, p c)
    (hrest : ∀ c ∈ rest.head?, p c = false) :
    (cs ++ rest).takeWhile p = cs ∧ (cs ++ rest).dropWhile p = rest := by
  rw [List.takeWhile_append_of_pos hcs, List.dropWhile_append_of_pos hcs]
  cases rest with
  | nil => exact ⟨List.append_nil cs, rfl⟩
  | cons c rest =>
      have hstop : ¬ p c := by simp [hrest c rfl]
      rw [List.takeWhile_cons_of_neg hstop, List.dropWhile_cons_of_neg hstop, List.append_nil]
      exact ⟨rfl, rfl⟩

theorem prefix_takeWhile {p : Char → Bool} {cs text : List Char} (h : cs <+: text)
    (hcs : ∀ c ∈ cs, p c) : cs <+: text.takeWhile p := by
  obtain ⟨rest, rfl⟩ := h
  rw [List.takeWhile_append_of_pos hcs]
  exact List.prefix_append cs _

theorem prefix_append_cases {cs text rest : List Char} (h : cs <+: text ++ rest) :
    cs <+: text ∨ ∃ more, cs = text ++ more ∧ more <+: rest := by
  rcases List.prefix_or_prefix_of_prefix h (List.prefix_append text rest) with hle | ⟨more, rfl⟩
  · exact .inl hle
  · exact .inr ⟨more, rfl, (List.prefix_append_right_inj text).mp h⟩

/-- How many bytes a text takes. -/
def byteLength (cs : List Char) : Nat := (String.ofList cs).utf8ByteSize

theorem byteLength_cons (c : Char) (cs : List Char) :
    byteLength (c :: cs) = c.utf8Size + byteLength cs := by
  rw [byteLength, String.ofList_cons, String.utf8ByteSize_append, String.utf8ByteSize_singleton,
    byteLength]

theorem byteLength_append (cs ds : List Char) :
    byteLength (cs ++ ds) = byteLength cs + byteLength ds := by
  rw [byteLength, String.ofList_append, String.utf8ByteSize_append, byteLength, byteLength]

theorem byteLength_pos {cs : List Char} (h : cs ≠ []) : 0 < byteLength cs := by
  obtain ⟨c, cs, rfl⟩ := List.exists_cons_of_ne_nil h
  have hc := c.utf8Size_pos
  rw [byteLength_cons]
  omega

/-- A text is what another one has between the white space at its ends. -/
structure Trims (cs text : List Char) : Prop where
  between : ∃ before after, cs = before ++ (text ++ after) ∧ (∀ c ∈ before, isBlank c) ∧
    ∀ c ∈ after, isBlank c
  first : ∀ c ∈ text.head?, isBlank c = false
  last : ∀ c ∈ text.getLast?, isBlank c = false

/-- What a predicate takes off the front of a text, and what it leaves there. -/
theorem span_spec (p : Char → Bool) (cs : List Char) :
    (∀ c ∈ cs.takeWhile p, p c) ∧ ∀ c ∈ (cs.dropWhile p).head?, p c = false := by
  refine ⟨fun c hc => List.mem_takeWhile_imp hc, fun c hc => ?_⟩
  have hhead := List.head?_dropWhile_not p cs
  rw [Option.mem_def.mp hc] at hhead
  simpa using hhead

theorem trims_trimmed (cs : List Char) : Trims cs (trimmed cs) := by
  obtain ⟨hbefore, hfirst⟩ := span_spec isBlank cs
  obtain ⟨hafter, hlast⟩ := span_spec isBlank (cs.dropWhile isBlank).reverse
  have hrest : trimmed cs ++ ((cs.dropWhile isBlank).reverse.takeWhile isBlank).reverse =
      cs.dropWhile isBlank := by
    rw [trimmed, ← List.reverse_append, List.takeWhile_append_dropWhile, List.reverse_reverse]
  refine ⟨⟨_, _, ?_, hbefore, fun c hc => hafter c (List.mem_reverse.mp hc)⟩, ?_, ?_⟩
  · rw [hrest, List.takeWhile_append_dropWhile]
  · intro c hc
    apply hfirst c
    rw [← hrest, List.head?_append, Option.mem_def.mp hc, Option.some_or]
    rfl
  · intro c hc
    apply hlast c
    rwa [trimmed, List.getLast?_reverse] at hc

theorem Trims.trimmed_eq {cs text : List Char} (h : Trims cs text) : trimmed cs = text := by
  obtain ⟨⟨before, after, rfl, hbefore, hafter⟩, hfirst, hlast⟩ := h
  have hback : (text ++ after).reverse.dropWhile isBlank = text.reverse := by
    rw [List.reverse_append]
    refine (span_append (fun c hc => hafter c (List.mem_reverse.mp hc)) fun c hc => ?_).2
    exact hlast c (by rwa [List.head?_reverse] at hc)
  cases text with
  | nil =>
      have hall : (before ++ ([] ++ after)).dropWhile isBlank = [] := by
        rw [List.dropWhile_eq_nil_iff]
        intro c hc
        rcases List.mem_append.mp hc with hc | hc
        · exact hbefore c hc
        · exact hafter c hc
      rw [trimmed, hall]
      rfl
  | cons c text =>
      have hfront : (before ++ (c :: text ++ after)).dropWhile isBlank = c :: text ++ after := by
        refine (span_append hbefore fun d hd => ?_).2
        exact hfirst d hd
      rw [trimmed, hfront, hback, List.reverse_reverse]

/-- Trimming finds the text between the white space, and there is one only. -/
theorem trimmed_eq_iff {cs text : List Char} : trimmed cs = text ↔ Trims cs text := by
  constructor
  · rintro rfl
    exact trims_trimmed cs
  · exact Trims.trimmed_eq

theorem trimmed_of_ends {first last : Char} (hfirst : isBlank first = false)
    (hlast : isBlank last = false) (cs : List Char) :
    trimmed (first :: cs ++ [last]) = first :: cs ++ [last] :=
  Trims.trimmed_eq
    { between := ⟨[], [], by simp, nofun, nofun⟩
      first := by simp [hfirst]
      last := by rw [List.getLast?_concat]; simp [hlast] }

theorem pieces_append {separator : Char} {cs : List Char} (h : separator ∉ cs)
    (rest : List Char) :
    pieces separator (cs ++ separator :: rest) = cs :: pieces separator rest := by
  induction cs with
  | nil => simp [pieces]
  | cons c cs ih =>
      rw [List.mem_cons, not_or] at h
      rw [List.cons_append, pieces, if_neg (Ne.symm h.1), ih h.2]

end PenFilter
