import PenFilter.Proofs.History
import PenFilter.Proofs.Variable

/-! # Names and slots

A variant writes the names of its variables and the values that it gathers at two places.  Both
follow `Variant.inputs` (`Variant.names_eq`, `Variant.gather_eq`), so that the value of a name is
gathered into the slot of the name (`Variant.gather_slots`), for every number of samples. -/

namespace PenFilter

/-! ### The schema of a variant -/

theorem Schema.names_ofList {names : List String} (h : names.Nodup) :
    (Schema.ofList names).names = names := by
  have hfold : ∀ start : List String, (start ++ names).Nodup →
      names.foldl Schema.insertName start = start ++ names := by
    clear h
    induction names with
    | nil => simp
    | cons name names ih =>
        intro start hstart
        have hnew : name ∉ start := fun hmem =>
          List.disjoint_of_nodup_append hstart hmem List.mem_cons_self
        rw [List.foldl_cons, Schema.insertName, if_neg hnew, ih _ (by simpa using hstart)]
        simp
  exact hfold [] h

namespace Variant

theorem names_eq (v : Variant) : v.names = v.inputs.map Variable.name := by
  cases v with
  | basic | extended => rfl
  | multiSample n => simp [names, inputs, List.map_flatMap, Variable.name]

theorem length_inputs (v : Variant) : v.inputs.length = v.arity := by
  cases v with
  | basic | extended => rfl
  | multiSample n =>
      simp [inputs, arity, List.length_flatMap]
      omega

theorem nodup_inputs (v : Variant) : v.inputs.Nodup := by
  cases v with
  | basic | extended => decide
  | multiSample n =>
      refine List.nodup_append.mpr ⟨by decide, ?_, ?_⟩
      · refine List.nodup_flatMap.mpr ⟨fun i _ => by simp, ?_⟩
        refine List.nodup_range.imp ?_
        intro i j hij
        simp [Function.onFun, Ne.symm hij]
      · intro v hv w hw
        simp only [List.mem_flatMap, List.mem_cons, List.not_mem_nil, or_false] at hv hw
        obtain ⟨i, -, rfl | rfl⟩ := hw <;> rcases hv with rfl | rfl | rfl | rfl <;> simp

theorem names_schema (v : Variant) : v.schema.names = v.inputs.map Variable.name := by
  rw [schema, names_eq]
  exact Schema.names_ofList (v.nodup_inputs.map Variable.name_injective)

theorem size_schema (v : Variant) : v.schema.size = v.arity := by
  rw [Schema.size, names_schema, List.length_map, length_inputs]

theorem slotOf?_name_iff {v : Variant} {input : Variable} {slot : Nat} :
    v.schema.slotOf? input.name = some slot ↔ v.inputs[slot]? = some input := by
  rw [Schema.slotOf?_eq_some_iff, Schema.nameAt?, names_schema, List.getElem?_map]
  exact (Option.map_injective Variable.name_injective).eq_iff (b := some input)

theorem foldl_push_pair {α : Type} (f g : Nat → α) (ages : List Nat) (values : Array α) :
    ages.foldl (fun values age => (values.push (f age)).push (g age)) values =
      values ++ ages.flatMap fun age => [f age, g age] := by
  induction ages generalizing values with
  | nil => simp
  | cons age ages ih => simp [ih]

/-- What is gathered are the values of the variables that the schema names. -/
theorem gather_eq (v : Variant) (raw : Report) (h : History) (tablet : Tablet)
    (buffer : Array Double) :
    v.gather raw h tablet buffer = (v.inputs.map (·.value raw h tablet)).toArray := by
  cases v with
  | basic | extended => simp [gather, inputs, Variable.value]
  | multiSample n =>
      simp [gather, inputs, foldl_push_pair, List.map_flatMap, Variable.value]

theorem size_gather (v : Variant) (raw : Report) (h : History) (tablet : Tablet)
    (buffer : Array Double) : (v.gather raw h tablet buffer).size = v.arity := by
  rw [gather_eq, List.size_toArray, List.length_map, length_inputs]

theorem getElem?_gather {v : Variant} {input : Variable} {slot : Nat}
    (hslot : v.inputs[slot]? = some input) {raw : Report} {h : History} {tablet : Tablet}
    (buffer : Array Double) :
    (v.gather raw h tablet buffer)[slot]? = some (input.value raw h tablet) := by
  simp [gather_eq, hslot]

/-- The entries of blocks of one length that follow each other. -/
theorem getElem?_flatMap_range {α : Type} {f : Nat → List α} {k : Nat}
    (hf : ∀ i, (f i).length = k) {n i o : Nat} (hi : i < n) (ho : o < k) :
    ((List.range n).flatMap f)[k * i + o]? = (f i)[o]? := by
  have hlength : ∀ m, ((List.range m).flatMap f).length = k * m := by
    intro m
    simp [List.length_flatMap, hf, Nat.mul_comm]
  induction n with
  | zero => omega
  | succ n ih =>
      rw [List.range_succ, List.flatMap_append]
      rcases Nat.lt_succ_iff_lt_or_eq.mp hi with hlt | rfl
      · have hbefore : k * i + o < k * n := by
          calc k * i + o < k * (i + 1) := by rw [Nat.mul_succ]; omega
            _ ≤ k * n := Nat.mul_le_mul_left k hlt
        rw [List.getElem?_append_left (by rw [hlength]; exact hbefore), ih hlt]
      · rw [List.getElem?_append_right (by rw [hlength]; omega), hlength, List.flatMap_singleton,
          Nat.add_sub_cancel_left]

theorem getElem?_inputs_sample {n i o : Nat} (hi : i < n) (ho : o < 2) :
    (multiSample n).inputs[4 + (2 * i + o)]? = [Variable.sampleX i, .sampleY i][o]? := by
  rw [inputs, List.getElem?_append_right (Nat.le_add_right 4 _), List.length_cons]
  simpa using getElem?_flatMap_range (f := fun i => [Variable.sampleX i, .sampleY i])
    (fun _ => rfl) hi ho

/-- **Names and values agree slot by slot.**  The schema of a variant has all its names, in their
order, and as many values are gathered as there are names.  Each name has a slot, where the
gathered value is the one meaning of the name, whatever was in the buffer.  The positions in the
memory have their slots in pairs behind the first four, for every number of samples: the latest
positions that the memory has room for, and zeros behind them. -/
theorem gather_slots (v : Variant) (raw : Report) (h : History) (tablet : Tablet)
    (buffer : Array Double) :
    v.schema.names = v.names ∧ v.schema.size = v.arity ∧
    (v.gather raw h tablet buffer).size = v.arity ∧
    (∀ name ∈ v.schema.names, ∃ slot value, v.schema.slotOf? name = some slot ∧
      (v.gather raw h tablet buffer)[slot]? = some value ∧
      ∀ other, Means raw h tablet name other ↔ other = value) ∧
    ∀ n, v = .multiSample n → ∀ age < n,
      v.schema.slotOf? ("x" ++ Decimal.text age) = some (4 + 2 * age) ∧
      v.schema.slotOf? ("y" ++ Decimal.text age) = some (5 + 2 * age) ∧
      ∀ positions, h.samples.Holds positions →
        (v.gather raw h tablet buffer)[4 + 2 * age]? =
          some ((positions.take h.samples.capacity)[age]?.getD .zero).x.toDouble ∧
        (v.gather raw h tablet buffer)[5 + 2 * age]? =
          some ((positions.take h.samples.capacity)[age]?.getD .zero).y.toDouble := by
  refine ⟨by rw [names_schema, names_eq], v.size_schema, v.size_gather raw h tablet buffer, ?_,
    ?_⟩
  · intro name hname
    obtain ⟨input, hinput, rfl⟩ := List.mem_map.mp (v.names_schema ▸ hname)
    obtain ⟨slot, hslot⟩ := List.mem_iff_getElem?.mp hinput
    refine ⟨slot, input.value raw h tablet, slotOf?_name_iff.mpr hslot,
      getElem?_gather hslot buffer, fun other => ⟨fun hother => ?_, ?_⟩⟩
    · exact hother.unique (means_iff.mpr ⟨input, rfl, rfl⟩)
    · rintro rfl
      exact means_iff.mpr ⟨input, rfl, rfl⟩
  · rintro n rfl age hage
    have hx := getElem?_inputs_sample hage (o := 0) (by decide)
    have hy := getElem?_inputs_sample hage (o := 1) (by decide)
    rw [show 4 + (2 * age + 1) = 5 + 2 * age by omega] at hy
    refine ⟨slotOf?_name_iff.mpr hx, slotOf?_name_iff.mpr hy, fun positions hholds => ?_⟩
    rw [← hholds.getD_get?]
    exact ⟨getElem?_gather hx buffer, getElem?_gather hy buffer⟩

/-- The theorem for twelve samples and a memory of two positions that was given three. -/
theorem gather_slots_short_memory :
    let place (n : Int) : Vec2 := ⟨.ofInt _ n, .ofInt _ (n + 1)⟩
    let ring := (((SampleRing.ofCapacity 2).push (place 1)).push (place 3)).push (place 5)
    let h : History := { samples := ring }
    let tablet : Tablet := ⟨.ofInt _ 100, .ofInt _ 50, 0⟩
    let values := (multiSample 12).gather { position := some (place 7) } h tablet #[.one]
    ring.Holds [place 5, place 3, place 1] ∧
      (∃ slot value, (multiSample 12).schema.slotOf? "mx" = some slot ∧
        values[slot]? = some value ∧
        ∀ other, Means { position := some (place 7) } h tablet "mx" other ↔ other = value) ∧
      (multiSample 12).schema.slotOf? "x1" = some 6 ∧ values[6]? = some (.ofNat 3) ∧
      (multiSample 12).schema.slotOf? "y11" = some 27 ∧ values[27]? = some .zero := by
  intro place ring h tablet values
  have hholds : ring.Holds [place 5, place 3, place 1] :=
    (((SampleRing.holds_ofCapacity 2).push _).push _).push _
  have hcapacity : h.samples.capacity = 2 := by simp [h, ring]
  obtain ⟨hnames, -, -, hmeans, hsamples⟩ :=
    gather_slots (multiSample 12) { position := some (place 7) } h tablet #[.one]
  obtain ⟨hx, -, hlatest⟩ := hsamples 12 rfl 1 (by decide)
  obtain ⟨-, hy, hoverdue⟩ := hsamples 12 rfl 11 (by decide)
  refine ⟨hholds, hmeans "mx" ?_, hx, ?_, hy, ?_⟩
  · rw [hnames]
    simp [names]
  · have hvalue : Single.toDouble (.ofInt _ 3) = .ofNat 3 := by decide
    rw [(hlatest _ hholds).1, hcapacity]
    exact congrArg some hvalue
  · have hvalue : Single.zero.toDouble = .zero := by decide
    rw [(hoverdue _ hholds).2, hcapacity]
    exact congrArg some hvalue

end Variant

end PenFilter
