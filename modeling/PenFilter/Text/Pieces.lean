/-! # Texts in pieces

`pieces` cuts a text at every separator.  There is always one piece more than there are
separators (`length_pieces`), so a text that ends with one has an empty last piece. -/

namespace PenFilter

/-- What stands between the separators of a text. -/
def pieces (separator : Char) : List Char → List (List Char)
  | [] => [[]]
  | c :: cs =>
    if c = separator then [] :: pieces separator cs
    else match pieces separator cs with
      | [] => [[c]]
      | piece :: more => (c :: piece) :: more

theorem length_pieces (separator : Char) (cs : List Char) :
    (pieces separator cs).length = cs.count separator + 1 := by
  induction cs with
  | nil => rfl
  | cons c cs ih =>
    by_cases h : c = separator
    · simp [pieces, h, ih]
    · rw [List.count_cons_of_ne h, ← ih, pieces, if_neg h]
      cases hp : pieces separator cs with
      | nil => simp [hp] at ih
      | cons piece more => rfl

end PenFilter
