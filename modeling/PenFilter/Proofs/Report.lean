import PenFilter.Proofs.Json.Record
import PenFilter.Proofs.Stage.Identity
import PenFilter.Proofs.Text
import PenFilter.Report.Json

/-! # Reports come back from their texts

A coordinate that is not finite is written as a word and read back from it; for a finite one it
takes that its digits are read as the same number (`Single.Rereads`).  A report is a record of its
measurements and comes back from its line with the same ones, and no others
(`Report.read?_text`). -/

namespace PenFilter

namespace Json

theorem toUInt32?_ofNat (n : UInt32) : (ofNat n.toNat).toUInt32? = some n := by
  have hlt : n.toNat < UInt64.size := n.toNat_lt.trans (by decide)
  rw [ofNat, toUInt32?, toNat?, Numeric.ofLiteral?_digits hlt]
  have hsize : n.toNat < UInt32.size := n.toNat_lt
  simp [hsize]

end Json

/-! ### Coordinates -/

namespace Binary

variable {fmt : Float.Model.Format}

theorem eq_infinity_of_isInfinite (hfmt : 2 ≤ fmt.exponentBits) {x : Binary fmt}
    (h : x.isInfinite) : x = infinity fmt x.isNegative := by
  rw [isInfinite] at h
  rcases unpack_cases hfmt x with hx | hx | hx | ⟨m, e, hrep, hx⟩
  · rw [hx] at h
    cases h
  · have hnumber : x.isNaN = false := by rw [isNaN, hx]; rfl
    rw [infinity, withSign_pack_infinity, ← hx, pack_unpack_of_isNaN_eq_false hfmt hnumber]
  · rw [hx] at h
    cases h
  · rw [hx] at h
    cases h

theorem read?_words (fmt : Float.Model.Format) :
    read? fmt (trimmed ['N', 'a', 'N']) = some (nan fmt false) ∧
    read? fmt (trimmed ['i', 'n', 'f']) = some (infinity fmt false) ∧
    read? fmt (trimmed ['-', 'i', 'n', 'f']) = some (infinity fmt true) := by
  have hnan : Numeral.read? (trimmed ['N', 'a', 'N']) = some (.nan false) := by decide
  have hplus : Numeral.read? (trimmed ['i', 'n', 'f']) = some (.infinite false) := by decide
  have hminus : Numeral.read? (trimmed ['-', 'i', 'n', 'f']) = some (.infinite true) := by decide
  unfold read?
  rw [hnan, hplus, hminus]
  exact ⟨rfl, rfl, rfl⟩

end Binary

/-- The digits of a number in JSON, if it is finite, are read as the number. -/
def Single.Rereads (x : Single) : Prop := x.isFinite → (Json.ofBinary x).toSingle? = some x

theorem Vec2.coordinate?_ofBinary {x : Single} (h : x.Rereads) :
    ∃ y, coordinate? (.ofBinary x) = some y ∧ x.Same y := by
  obtain ⟨hnanWord, hplusWord, hminusWord⟩ := Binary.read?_words .binary32
  by_cases hfinite : x.isFinite
  · refine ⟨x, ?_, .inl rfl⟩
    rw [← h hfinite, Json.ofBinary, if_pos hfinite]
    rfl
  rw [Json.ofBinary, if_neg hfinite]
  show ∃ y, Binary.read? _ (trimmed (x.text .plain).toList) = some y ∧ x.Same y
  rw [Binary.text, String.toList_ofList, Binary.signed]
  by_cases hnan : x.isNaN
  · rw [if_pos hnan]
    exact ⟨_, hnanWord, .inr ⟨hnan, Binary.isNaN_nan false⟩⟩
  · have hinfinite : x.isInfinite := by
      by_contra hinfinite
      exact hfinite (Binary.isFinite_iff.mpr
        ⟨Bool.eq_false_iff.mpr hnan, Bool.eq_false_iff.mpr hinfinite⟩)
    have hx := Binary.eq_infinity_of_isInfinite (by decide) hinfinite
    rw [if_neg hnan, if_pos hinfinite]
    cases hsign : x.isNegative with
    | true => exact ⟨_, hminusWord, .inl (by rw [hx, hsign])⟩
    | false => exact ⟨_, hplusWord, .inl (by rw [hx, hsign])⟩

/-! ### Reports -/

/-- The digits of all finite coordinates are read as the same numbers. -/
structure Vec2.Rereads (v : Vec2) : Prop where
  x : v.x.Rereads
  y : v.y.Rereads

structure Report.Rereads (r : Report) : Prop where
  position : ∀ v ∈ r.position, v.Rereads
  tilt : ∀ v ∈ r.tilt, v.Rereads

theorem Vec2.ofJson?_toJson {v : Vec2} (h : v.Rereads) :
    ∃ w, ofJson? v.toJson = some w ∧ v.Same w := by
  obtain ⟨x, hx, hsamex⟩ := coordinate?_ofBinary h.x
  obtain ⟨y, hy, hsamey⟩ := coordinate?_ofBinary h.y
  have hfields : v.toJson.fields? ["x", "y"] =
      some [some (.ofBinary v.x), some (.ofBinary v.y)] :=
    Json.fields?_record [("x", some (.ofBinary v.x)), ("y", some (.ofBinary v.y))] (by simp)
  refine ⟨⟨x, y⟩, ?_, hsamex, hsamey⟩
  simp [ofJson?, hfields, hx, hy]

theorem Vec2.optional?_toJson {v : Option Vec2} (h : ∀ w ∈ v, w.Rereads) :
    ∃ w, Json.optional? ofJson? (v.map toJson) = some w ∧ Option.Rel Vec2.Same v w := by
  cases v with
  | none => exact ⟨none, rfl, .none⟩
  | some v =>
      obtain ⟨w, hw, hsame⟩ := ofJson?_toJson (h v rfl)
      refine ⟨some w, ?_, .some hsame⟩
      show (ofJson? v.toJson).map some = _
      rw [hw, Option.map_some]

theorem Json.optional?_toUInt32? (n : Option UInt32) :
    optional? toUInt32? (n.map fun n => ofNat n.toNat) = some n := by
  cases n with
  | none => rfl
  | some n =>
      show (toUInt32? (ofNat n.toNat)).map some = _
      rw [toUInt32?_ofNat, Option.map_some]

namespace Report

/-- A report is written as a record of the measurements that it carries. -/
theorem toJson_eq (r : Report) : r.toJson = .record
    [("position", r.position.map Vec2.toJson), ("pressure", r.pressure.map fun n => .ofNat n.toNat),
      ("tilt", r.tilt.map Vec2.toJson),
      ("hover_distance", r.hoverDistance.map fun n => .ofNat n.toNat)] := by
  unfold toJson Json.record Json.givenMembers
  cases r.position <;> cases r.pressure <;> cases r.tilt <;> cases r.hoverDistance <;> rfl

theorem ofJson?_toJson {r : Report} (h : r.Rereads) :
    ∃ back, ofJson? r.toJson = some back ∧ r.Same back := by
  obtain ⟨position, hposition, hsamePosition⟩ := Vec2.optional?_toJson h.position
  obtain ⟨tilt, htilt, hsameTilt⟩ := Vec2.optional?_toJson h.tilt
  have hfields : r.toJson.fields? ["position", "pressure", "tilt", "hover_distance"] =
      some [r.position.map Vec2.toJson, r.pressure.map fun n => .ofNat n.toNat,
        r.tilt.map Vec2.toJson, r.hoverDistance.map fun n => .ofNat n.toNat] := by
    rw [toJson_eq]
    exact Json.fields?_record _ (by simp)
  refine ⟨⟨position, r.pressure, tilt, r.hoverDistance⟩, ?_, hsamePosition, rfl, hsameTilt, rfl⟩
  simp [ofJson?, hfields, hposition, htilt, Json.optional?_toUInt32?]

end Report

theorem Vec2.writable_toJson (v : Vec2) : v.toJson.Writable := by
  apply Json.writable_ofMembers
  intro m hm
  rcases List.mem_pair.mp hm with rfl | rfl <;> exact Json.writable_ofBinary _

namespace Report

theorem writable_toJson (r : Report) : r.toJson.Writable := by
  rw [toJson_eq]
  apply Json.writable_record
  intro f hf v hv
  simp only [List.mem_cons, List.not_mem_nil, or_false] at hf
  rcases hf with rfl | rfl | rfl | rfl
  all_goals obtain ⟨value, -, rfl⟩ := Option.map_eq_some_iff.mp hv
  · exact value.writable_toJson
  · exact Json.literal_digits value.toNat
  · exact value.writable_toJson
  · exact Json.literal_digits value.toNat

/-- **A report comes back from its text.** -/
theorem read?_text {r : Report} (h : r.Rereads) :
    ∃ back, read? r.text = some back ∧ r.Same back := by
  obtain ⟨back, hback, hsame⟩ := ofJson?_toJson h
  refine ⟨back, ?_, hsame⟩
  rw [read?, text, Json.read?_compact r.writable_toJson, Option.bind_some, hback]

/-! ### The line of a report -/

theorem exists_text_eq (r : Report) : ∃ cs, r.text.toList = '\x7b' :: cs ++ ['\x7d'] := by
  rw [text, Json.compact, String.toList_ofList]
  exact ⟨_, rfl⟩

theorem trimmed_text (r : Report) : trimmed r.text.toList = r.text.toList := by
  obtain ⟨cs, hcs⟩ := r.exists_text_eq
  rw [hcs]
  exact trimmed_of_ends (by decide) (by decide) cs

theorem newline_notMem_text (r : Report) : '\n' ∉ r.text.toList := by
  rw [text, Json.compact, String.toList_ofList]
  exact Json.newline_notMem_compactChars _ r.writable_toJson

end Report

/-! ### Reports that say the same -/

theorem Json.ofBinary_congr {x y : Single} (h : x.Same y) :
    (ofBinary x : Json) = ofBinary y := by
  rcases h with rfl | ⟨hx, hy⟩
  · rfl
  · have hword : ∀ {z : Single}, z.isNaN → (ofBinary z : Json) = .ofString "NaN" := by
      intro z hz
      have hfinite : ¬ z.isFinite := by
        intro hfinite
        rw [(Binary.isFinite_iff.mp hfinite).1] at hz
        cases hz
      rw [ofBinary, if_neg hfinite, Binary.text, Binary.signed, if_pos hz]
    rw [hword hx, hword hy]

theorem Vec2.toJson_congr {v w : Vec2} (h : v.Same w) : v.toJson = w.toJson := by
  rw [toJson, toJson, Json.ofBinary_congr h.x, Json.ofBinary_congr h.y]

theorem Vec2.map_toJson_congr {v w : Option Vec2} (h : Option.Rel Vec2.Same v w) :
    v.map toJson = w.map toJson := by
  cases h with
  | none => rfl
  | some h => rw [Option.map_some, Option.map_some, toJson_congr h]

theorem Report.Same.text_eq {r q : Report} (h : r.Same q) : r.text = q.text := by
  rw [text, text, toJson_eq, toJson_eq, Vec2.map_toJson_congr h.position, h.pressure,
    Vec2.map_toJson_congr h.tilt, h.hoverDistance]

end PenFilter
