import PenFilter.Json.Fields
import PenFilter.Proofs.Json.Reader

/-! # Records come back from JSON

The members of a record that are given are read as its fields, the others as fields that are not
there (`Json.fields?_record`).  A record can be written as soon as the fields that are given
can. -/

namespace PenFilter

namespace Json

/-! ### Fields -/

/-- The members for those fields of a record that are given. -/
def givenMembers (fields : List (String × Option Json)) : List (String × Json) :=
  fields.filterMap fun f => f.2.map (f.1, ·)

theorem mapM_keys (members : List (String × Json)) :
    (members.map fun (key, v) => (some key, v)).mapM
      (fun (key, v) => Option.map (·, v) key) = some members := by
  induction members with
  | nil => rfl
  | cons m members ih => simp [ih]

theorem filter_givenMembers_of_notMem {fields : List (String × Option Json)} {key : String}
    (h : key ∉ fields.map Prod.fst) : (givenMembers fields).filter (·.1 == key) = [] := by
  rw [List.filter_eq_nil_iff]
  intro m hm hkey
  obtain ⟨f, hf, hgiven⟩ := List.mem_filterMap.mp hm
  obtain ⟨v, -, rfl⟩ := Option.map_eq_some_iff.mp hgiven
  rw [beq_iff_eq] at hkey
  exact h (List.mem_map.mpr ⟨f, hf, hkey⟩)

theorem member?_givenMembers {fields : List (String × Option Json)}
    (hkeys : (fields.map Prod.fst).Nodup) {f : String × Option Json} (hf : f ∈ fields) :
    member? (givenMembers fields) f.1 = some f.2 := by
  have hfilter : (givenMembers fields).filter (·.1 == f.1) = (f.2.map (f.1, ·)).toList := by
    induction fields with
    | nil => cases hf
    | cons g fields ih =>
        rw [List.map_cons, List.nodup_cons] at hkeys
        have hsplit : givenMembers (g :: fields) =
            (g.2.map (g.1, ·)).toList ++ givenMembers fields := by
          cases hg : g.2 <;> simp [givenMembers, hg]
        rw [hsplit, List.filter_append]
        rcases List.mem_cons.mp hf with rfl | hmem
        · rw [filter_givenMembers_of_notMem hkeys.1, List.append_nil]
          cases f.2 <;> simp
        · have hne : g.1 ≠ f.1 := by
            intro heq
            exact hkeys.1 (heq ▸ List.mem_map_of_mem hmem)
          rw [ih hkeys.2 hmem]
          cases g.2 <;> simp [hne]
  rw [member?, hfilter]
  cases f.2 <;> rfl

/-- The object with those fields that are given. -/
def record (fields : List (String × Option Json)) : Json := ofMembers (givenMembers fields)

/-- Some fields of a record are what its given members say, whatever order they are asked in. -/
theorem fields?_record_of_subset {fields part : List (String × Option Json)}
    (hkeys : (fields.map Prod.fst).Nodup) (hsub : part ⊆ fields) :
    (record fields).fields? (part.map Prod.fst) = some (part.map Prod.snd) := by
  rw [record, ofMembers, fields?, mapM_keys]
  show (part.map Prod.fst).mapM (member? (givenMembers fields)) = some (part.map Prod.snd)
  induction part with
  | nil => rfl
  | cons f part ih =>
      rw [List.cons_subset] at hsub
      simp [member?_givenMembers hkeys hsub.1, ih hsub.2]

theorem fields?_record (fields : List (String × Option Json))
    (hkeys : (fields.map Prod.fst).Nodup) :
    (record fields).fields? (fields.map Prod.fst) = some (fields.map Prod.snd) :=
  fields?_record_of_subset hkeys (List.Subset.refl fields)

/-! ### Texts -/

theorem writable_ofMembers {members : List (String × Json)}
    (h : ∀ m ∈ members, m.2.Writable) : (ofMembers members).Writable := by
  unfold ofMembers Writable
  induction members with
  | nil => trivial
  | cons m members ih =>
      rw [List.forall_mem_cons] at h
      exact ⟨rfl, h.1, ih h.2⟩

theorem writable_record {fields : List (String × Option Json)}
    (h : ∀ f ∈ fields, ∀ v ∈ f.2, v.Writable) : (record fields).Writable := by
  apply writable_ofMembers
  intro m hm
  obtain ⟨f, hf, hgiven⟩ := List.mem_filterMap.mp hm
  obtain ⟨v, hv, rfl⟩ := Option.map_eq_some_iff.mp hgiven
  exact h f hf v hv

theorem writable_array {items : List Json} (h : ∀ v ∈ items, v.Writable) :
    (array items).Writable := by
  unfold Writable
  induction items with
  | nil => trivial
  | cons v items ih =>
      rw [List.forall_mem_cons] at h
      exact ⟨h.1, ih h.2⟩

@[simp] theorem writable_ofString (s : String) : (ofString s).Writable := rfl

@[simp] theorem writable_texts (texts : List String) : (array (texts.map ofString)).Writable := by
  apply writable_array
  intro v hv
  obtain ⟨text, -, rfl⟩ := List.mem_map.mp hv
  exact writable_ofString text

@[simp] theorem writable_bool (b : Bool) : (bool b).Writable := trivial

@[simp] theorem writable_ofBinary {fmt : Float.Model.Format} (x : Binary fmt) :
    (ofBinary x).Writable := by
  unfold ofBinary
  split
  · rename_i hfinite
    exact literal_text hfinite
  · rfl

end Json

end PenFilter
