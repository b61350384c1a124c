import Mathlib.Data.List.Induction
import PenFilter.Command.Eval
import PenFilter.Proofs.Filter.Fallback
import PenFilter.Proofs.Formula.Extension
import PenFilter.Proofs.Text
import PenFilter.Proofs.Variant

/-! # Bindings of variables

A binding has two sides, which meet at its first equals sign (`Sides`).  It binds a variable to a
number (`Binds`) or is refused with one error (`Refuses`), and no binding is both
(`readBinding_eq_ok_iff`, `readBinding_eq_error_iff`).

Of a list of bindings the first that is refused is the error (`bindAll_eq_error_iff`).  Where none
is, a variable ends up with the number of the last binding that binds it (`EndsUp`): one more
binding sets the slot of its own name and no other (`bindValues_spec`). -/

namespace PenFilter

/-! ### One binding -/

theorem splitAtEquals?_eq_some_iff {cs before after : List Char} :
    splitAtEquals? cs = some (before, after) ↔ cs = before ++ '=' :: after ∧ '=' ∉ before := by
  obtain ⟨hname, hstop⟩ := span_spec (· != '=') cs
  constructor
  · intro h
    unfold splitAtEquals? at h
    cases hrest : cs.dropWhile (· != '=') with
    | nil =>
        rw [hrest] at h
        cases h
    | cons sign value =>
        rw [hrest] at h
        cases h
        have hsign := hstop sign (by rw [hrest]; rfl)
        obtain rfl : sign = '=' := by simpa using hsign
        refine ⟨?_, fun hmem => by simpa using hname '=' hmem⟩
        rw [← hrest, List.takeWhile_append_dropWhile]
  · rintro ⟨rfl, hbefore⟩
    have hne : ∀ c ∈ before, (c != '=') = true := by
      intro c hc
      rw [bne_iff_ne]
      rintro rfl
      exact hbefore hc
    have hstop : ∀ c ∈ ('=' :: after).head?, (c != '=') = false := by simp
    obtain ⟨htake, hdrop⟩ := span_append hne hstop
    unfold splitAtEquals?
    rw [htake, hdrop]

theorem splitAtEquals?_eq_none_iff {cs : List Char} : splitAtEquals? cs = none ↔ '=' ∉ cs := by
  unfold splitAtEquals?
  cases hrest : cs.dropWhile (· != '=') with
  | nil =>
      rw [List.dropWhile_eq_nil_iff] at hrest
      simpa using fun hmem => by simpa using hrest '=' hmem
  | cons sign value =>
      have hsign := (span_spec (· != '=') cs).2 sign (by rw [hrest]; rfl)
      obtain rfl : sign = '=' := by simpa using hsign
      have hmem : '=' ∈ cs := (List.dropWhile_suffix _).subset (by rw [hrest]; simp)
      simpa using hmem

/-- The two sides of a binding: what is before its first equals sign and what is after it, between
white space. -/
def Sides (binding : String) (name value : List Char) : Prop :=
  ∃ before after, binding.toList = before ++ '=' :: after ∧ '=' ∉ before ∧
    Trims before name ∧ Trims after value

theorem sides_iff {binding : String} {name value : List Char} :
    Sides binding name value ↔ ∃ before after,
      splitAtEquals? binding.toList = some (before, after) ∧ trimmed before = name ∧
        trimmed after = value := by
  simp only [Sides, splitAtEquals?_eq_some_iff, trimmed_eq_iff, and_assoc]

theorem Sides.unique {binding : String} {name name' value value' : List Char}
    (h : Sides binding name value) (h' : Sides binding name' value') :
    name = name' ∧ value = value' := by
  obtain ⟨before, after, hsplit, rfl, rfl⟩ := sides_iff.mp h
  obtain ⟨before', after', hsplit', rfl, rfl⟩ := sides_iff.mp h'
  rw [hsplit] at hsplit'
  cases hsplit'
  exact ⟨rfl, rfl⟩

/-- A binding gives a number to a variable. -/
structure Binds (variant : Variant) (binding name : String) (number : Double) : Prop where
  sides : ∃ value, Sides binding name.toList value ∧ Binary.read? .binary64 value = some number
  known : name ∈ variant.schema.names

/-- A binding is refused with an error.  Without an equals sign or a number it is malformed,
whatever its name is; otherwise the name may be unknown. -/
inductive Refuses (variant : Variant) (binding : String) : CommandError → Prop
  | unsigned (h : '=' ∉ binding.toList) : Refuses variant binding (.invalidBinding binding)
  | notANumber {name value : List Char} (h : Sides binding name value)
    (hvalue : Binary.read? .binary64 value = none) :
    Refuses variant binding (.invalidBinding binding)
  | unknown {name : String} {value : List Char} {number : Double}
    (h : Sides binding name.toList value) (hvalue : Binary.read? .binary64 value = some number)
    (hname : name ∉ variant.schema.names) :
    Refuses variant binding (.unknownVariable name variant)

section

variable {variant : Variant} {binding name : String} {number : Double} {slot : Nat}

/-- What reading a binding comes to, by its sides. -/
theorem readBinding_of_sides {left value : List Char} (h : Sides binding left value) :
    readBinding variant binding =
      match Binary.read? .binary64 value with
      | none => .error (.invalidBinding binding)
      | some number =>
        match variant.schema.slotOf? (String.ofList left) with
        | none => .error (.unknownVariable (String.ofList left) variant)
        | some slot => .ok (slot, number) := by
  obtain ⟨before, after, hsplit, rfl, rfl⟩ := sides_iff.mp h
  unfold readBinding
  cases hvalue : Binary.read? .binary64 (trimmed after) with
  | none => simp only [hsplit, hvalue]
  | some number =>
      cases hslot : variant.schema.slotOf? (String.ofList (trimmed before)) with
      | none => simp only [hsplit, hvalue, hslot]
      | some slot => simp only [hsplit, hvalue, hslot]

theorem readBinding_of_unsigned (h : '=' ∉ binding.toList) :
    readBinding variant binding = .error (.invalidBinding binding) := by
  rw [readBinding, splitAtEquals?_eq_none_iff.mpr h]

theorem sides_or_unsigned (binding : String) :
    (∃ name value, Sides binding name value) ∨ '=' ∉ binding.toList := by
  cases hsplit : splitAtEquals? binding.toList with
  | none => exact .inr (splitAtEquals?_eq_none_iff.mp hsplit)
  | some sides => exact .inl ⟨_, _, sides_iff.mpr ⟨_, _, hsplit, rfl, rfl⟩⟩

theorem Binds.readBinding_eq (h : Binds variant binding name number)
    (hslot : variant.schema.slotOf? name = some slot) :
    readBinding variant binding = .ok (slot, number) := by
  obtain ⟨value, hsides, hvalue⟩ := h.sides
  rw [readBinding_of_sides hsides, hvalue, String.ofList_toList]
  simp only [hslot]

theorem Refuses.readBinding_eq {e : CommandError} (h : Refuses variant binding e) :
    readBinding variant binding = .error e := by
  cases h with
  | unsigned h => exact readBinding_of_unsigned h
  | notANumber h hvalue => rw [readBinding_of_sides h, hvalue]
  | unknown h hvalue hname =>
      rw [readBinding_of_sides h, hvalue, String.ofList_toList]
      simp only [Schema.slotOf?_eq_none_iff.mpr hname]

theorem binds_or_refuses (variant : Variant) (binding : String) :
    (∃ name number, Binds variant binding name number) ∨ ∃ e, Refuses variant binding e := by
  rcases sides_or_unsigned binding with ⟨left, value, hsides⟩ | hunsigned
  · cases hvalue : Binary.read? .binary64 value with
    | none => exact .inr ⟨_, .notANumber hsides hvalue⟩
    | some number =>
        have hsides' : Sides binding (String.ofList left).toList value := by
          rwa [String.toList_ofList]
        by_cases hknown : String.ofList left ∈ variant.schema.names
        · exact .inl ⟨_, number, ⟨value, hsides', hvalue⟩, hknown⟩
        · exact .inr ⟨_, .unknown hsides' hvalue hknown⟩
  · exact .inr ⟨_, .unsigned hunsigned⟩

theorem readBinding_eq_error_iff {e : CommandError} :
    readBinding variant binding = .error e ↔ Refuses variant binding e := by
  refine ⟨fun h => ?_, Refuses.readBinding_eq⟩
  rcases binds_or_refuses variant binding with ⟨name, number, hbinds⟩ | ⟨e', hrefuses⟩
  · obtain ⟨slot, hslot⟩ := Schema.exists_slotOf? hbinds.known
    rw [hbinds.readBinding_eq hslot] at h
    cases h
  · rw [hrefuses.readBinding_eq] at h
    cases h
    exact hrefuses

theorem readBinding_eq_ok_iff :
    readBinding variant binding = .ok (slot, number) ↔
      ∃ name, Binds variant binding name number ∧ variant.schema.slotOf? name = some slot := by
  refine ⟨fun h => ?_, fun ⟨name, hbinds, hslot⟩ => hbinds.readBinding_eq hslot⟩
  rcases binds_or_refuses variant binding with ⟨name, number', hbinds⟩ | ⟨e, hrefuses⟩
  · obtain ⟨slot', hslot'⟩ := Schema.exists_slotOf? hbinds.known
    rw [hbinds.readBinding_eq hslot'] at h
    cases h
    exact ⟨name, hbinds, hslot'⟩
  · rw [hrefuses.readBinding_eq] at h
    cases h

theorem Binds.unique {name' : String} {number' : Double} (h : Binds variant binding name number)
    (h' : Binds variant binding name' number') : name = name' ∧ number = number' := by
  obtain ⟨value, hsides, hvalue⟩ := h.sides
  obtain ⟨value', hsides', hvalue'⟩ := h'.sides
  obtain ⟨hname, rfl⟩ := hsides.unique hsides'
  rw [hvalue] at hvalue'
  exact ⟨String.toList_injective hname, Option.some.inj hvalue'⟩

theorem Binds.not_refuses (h : Binds variant binding name number) (e : CommandError) :
    ¬ Refuses variant binding e := by
  intro hrefuses
  obtain ⟨slot, hslot⟩ := Schema.exists_slotOf? h.known
  have hread := hrefuses.readBinding_eq
  rw [h.readBinding_eq hslot] at hread
  cases hread

end

/-! ### Bindings in turn -/

/-- The number that a variable has after bindings: that of the last one that binds it, and zero if
none does. -/
inductive EndsUp (variant : Variant) (bindings : List String) (name : String) : Double → Prop
  | bound {before : List String} {binding : String} {after : List String} {number : Double}
    (h : bindings = before ++ binding :: after) (hbinds : Binds variant binding name number)
    (hlater : ∀ later ∈ after, ∀ other, ¬ Binds variant later name other) :
    EndsUp variant bindings name number
  | unbound (h : ∀ binding ∈ bindings, ∀ other, ¬ Binds variant binding name other) :
    EndsUp variant bindings name .zero

section

variable {variant : Variant} {bindings : List String} {binding name : String} {number : Double}

theorem append_singleton_eq_append_cons {α : Type} {as before after : List α} {a b : α}
    (h : as ++ [a] = before ++ b :: after) :
    after = [] ∧ a = b ∨ ∃ rest, after = rest ++ [a] ∧ as = before ++ b :: rest := by
  rcases List.eq_nil_or_concat after with rfl | ⟨rest, last, rfl⟩
  · obtain ⟨-, hlast⟩ := List.append_inj' h rfl
    exact .inl ⟨rfl, List.head_eq_of_cons_eq hlast⟩
  · rw [List.concat_eq_append, ← List.cons_append, ← List.append_assoc] at h
    obtain ⟨hfront, hlast⟩ := List.append_inj' h rfl
    obtain rfl := List.head_eq_of_cons_eq hlast
    exact .inr ⟨rest, List.concat_eq_append, hfront⟩

theorem endsUp_nil : EndsUp variant [] name number ↔ number = .zero := by
  constructor
  · intro h
    cases h with
    | bound h _ _ => simp at h
    | unbound _ => rfl
  · rintro rfl
    exact .unbound nofun

/-- A binding of the variable at the end decides. -/
theorem endsUp_concat_of_binds (h : Binds variant binding name number) {other : Double} :
    EndsUp variant (bindings ++ [binding]) name other ↔ other = number := by
  constructor
  · intro hends
    cases hends with
    | @bound before last after _ hsplit hbinds hlater =>
        rcases append_singleton_eq_append_cons hsplit with ⟨-, rfl⟩ | ⟨rest, rfl, -⟩
        · exact (hbinds.unique h).2
        · exact absurd h (hlater binding (by simp) _)
    | unbound hnone => exact absurd h (hnone binding (by simp) _)
  · rintro rfl
    exact .bound rfl h nofun

/-- A binding of another variable at the end makes no difference. -/
theorem endsUp_concat_of_not_binds (h : ∀ other, ¬ Binds variant binding name other) :
    EndsUp variant (bindings ++ [binding]) name number ↔ EndsUp variant bindings name number := by
  constructor
  · intro hends
    cases hends with
    | @bound before last after _ hsplit hbinds hlater =>
        rcases append_singleton_eq_append_cons hsplit with ⟨-, rfl⟩ | ⟨rest, rfl, hfront⟩
        · exact absurd hbinds (h _)
        · exact .bound hfront hbinds fun later hmem => hlater later (List.mem_append_left _ hmem)
    | unbound hnone => exact .unbound fun b hb => hnone b (List.mem_append_left _ hb)
  · intro hends
    have hlast : ∀ (bs : List String), (∀ b ∈ bs, ∀ other, ¬ Binds variant b name other) →
        ∀ b ∈ bs ++ [binding], ∀ other, ¬ Binds variant b name other := by
      intro bs hbs b hb
      rcases List.mem_append.mp hb with hb | hb
      · exact hbs b hb
      · obtain rfl := List.mem_singleton.mp hb
        exact h
    cases hends with
    | @bound before last after _ hsplit hbinds hlater =>
        have hsplit' : bindings ++ [binding] = before ++ last :: (after ++ [binding]) := by
          simp [hsplit]
        exact .bound hsplit' hbinds (hlast after hlater)
    | unbound hnone => exact .unbound (hlast bindings hnone)

theorem bindAll_append (before after : List String) (values : Array Double) :
    bindAll variant (before ++ after) values =
      bindAll variant before values >>= bindAll variant after := by
  induction before generalizing values with
  | nil => rfl
  | cons binding before ih =>
      rw [List.cons_append, bindAll, bindAll]
      cases readBinding variant binding with
      | error e => rfl
      | ok bound => exact ih _

/-- Bindings are taken as they all bind something. -/
theorem exists_bindAll_iff {values : Array Double} :
    (∃ result, bindAll variant bindings values = .ok result) ↔
      ∀ binding ∈ bindings, ∃ name number, Binds variant binding name number := by
  induction bindings generalizing values with
  | nil => simp [bindAll]
  | cons binding bindings ih =>
      rw [List.forall_mem_cons, bindAll]
      rcases binds_or_refuses variant binding with ⟨name, number, hbinds⟩ | ⟨e, hrefuses⟩
      · obtain ⟨slot, hslot⟩ := Schema.exists_slotOf? hbinds.known
        rw [hbinds.readBinding_eq hslot]
        simp only [ih]
        exact ⟨fun h => ⟨⟨name, number, hbinds⟩, h⟩, And.right⟩
      · rw [hrefuses.readBinding_eq]
        constructor
        · rintro ⟨result, ⟨⟩⟩
        · rintro ⟨⟨name, number, hbinds⟩, -⟩
          exact absurd hrefuses (hbinds.not_refuses e)

/-- The error is that of the first binding that is refused, whatever follows. -/
theorem bindAll_eq_error_iff {values : Array Double} {e : CommandError} :
    bindAll variant bindings values = .error e ↔
      ∃ before binding after, bindings = before ++ binding :: after ∧
        (∀ b ∈ before, ∃ name number, Binds variant b name number) ∧
        Refuses variant binding e := by
  constructor
  · intro h
    induction bindings generalizing values with
    | nil => cases h
    | cons binding bindings ih =>
        rw [bindAll] at h
        rcases binds_or_refuses variant binding with ⟨name, number, hbinds⟩ | ⟨e', hrefuses⟩
        · obtain ⟨slot, hslot⟩ := Schema.exists_slotOf? hbinds.known
          rw [hbinds.readBinding_eq hslot] at h
          obtain ⟨before, refused, after, rfl, hbefore, hrefuses⟩ := ih h
          exact ⟨binding :: before, refused, after, rfl,
            List.forall_mem_cons.mpr ⟨⟨name, number, hbinds⟩, hbefore⟩, hrefuses⟩
        · rw [hrefuses.readBinding_eq] at h
          cases h
          exact ⟨[], binding, bindings, rfl, nofun, hrefuses⟩
  · rintro ⟨before, binding, after, rfl, hbefore, hrefuses⟩
    obtain ⟨result, hresult⟩ := exists_bindAll_iff.mpr hbefore
    rw [bindAll_append, hresult]
    show bindAll variant (binding :: after) result = .error e
    rw [bindAll, hrefuses.readBinding_eq]

/-- There is a value for every variable, and it is where the last binding of the variable has left
it. -/
theorem bindValues_spec {values : Array Double} (h : bindValues variant bindings = .ok values) :
    values.size = variant.schema.size ∧
      ∀ slot name, variant.schema.nameAt? slot = some name → ∀ number,
        values[slot]? = some number ↔ EndsUp variant bindings name number := by
  induction bindings using List.reverseRecOn generalizing values with
  | nil =>
      cases h
      refine ⟨Array.size_replicate, fun slot name hname number => ?_⟩
      obtain ⟨hslot, -⟩ := List.getElem?_eq_some_iff.mp hname
      have hsize : slot < variant.schema.size := hslot
      rw [endsUp_nil, Array.getElem?_replicate, if_pos hsize, Option.some.injEq, eq_comm]
  | append_singleton bindings binding ih =>
      rw [bindValues, bindAll_append] at h
      obtain ⟨former, hformer, hlast⟩ := bind_eq_ok_iff.mp h
      obtain ⟨hsize, hvalues⟩ := ih hformer
      rw [bindAll] at hlast
      cases hread : readBinding variant binding with
      | error e =>
          rw [hread] at hlast
          cases hlast
      | ok bound =>
          obtain ⟨place, bound⟩ := bound
          rw [hread] at hlast
          cases hlast
          obtain ⟨other, hbinds, hplace⟩ := readBinding_eq_ok_iff.mp hread
          refine ⟨by rw [Array.size_setIfInBounds, hsize], fun slot name hname number => ?_⟩
          by_cases hsame : other = name
          · subst hsame
            have hslot : place = slot :=
              Option.some.inj (hplace.symm.trans (Schema.slotOf?_eq_some_iff.mpr hname))
            obtain ⟨hlt, -⟩ := List.getElem?_eq_some_iff.mp hname
            have hin : slot < former.size := hsize ▸ hlt
            rw [endsUp_concat_of_binds hbinds, hslot, Array.getElem?_setIfInBounds_self_of_lt hin,
              Option.some.injEq, eq_comm]
          · have hslot : place ≠ slot := by
              rintro rfl
              rw [Schema.slotOf?_eq_some_iff, hname] at hplace
              exact hsame (Option.some.inj hplace).symm
            have hnot : ∀ v, ¬ Binds variant binding name v := fun v hv =>
              hsame (hbinds.unique hv).1
            rw [endsUp_concat_of_not_binds hnot, Array.getElem?_setIfInBounds_ne hslot]
            exact hvalues slot name hname number

/-- **Bindings give values to variables, the last one wins.**  They are taken exactly when every one
of them has an equals sign, a number after it and the name of a variable before it.  Then there are
as many values as variables, each the number of the last binding of its variable, or zero without
one; so a formula is never run on too few or too many values, and its value is that of its tree.
Otherwise the error is that of the first binding that is refused, whatever comes after it. -/
theorem bindValues_last_wins (variant : Variant) (bindings : List String) :
    ((∃ values, bindValues variant bindings = .ok values) ↔
      ∀ binding ∈ bindings, ∃ name number, Binds variant binding name number) ∧
    (∀ values, bindValues variant bindings = .ok values →
      values.size = variant.schema.size ∧
      (∀ slot name, variant.schema.nameAt? slot = some name → ∀ number,
        values[slot]? = some number ↔ EndsUp variant bindings name number) ∧
      ∀ formula program, Program.ofFormula variant.schema formula = .ok program →
        values.size = program.arity ∧ ∃ e, Expr.parse variant.schema formula = .ok e ∧
          evaluateWith variant formula bindings = .ok (e.eval (variant.schema.valueOf values))) ∧
    ∀ e, bindValues variant bindings = .error e ↔
      ∃ before binding after, bindings = before ++ binding :: after ∧
        (∀ b ∈ before, ∃ name number, Binds variant b name number) ∧ Refuses variant binding e := by
  refine ⟨exists_bindAll_iff, fun values hvalues => ?_, fun e => bindAll_eq_error_iff⟩
  obtain ⟨hsize, hends⟩ := bindValues_spec hvalues
  refine ⟨hsize, hends, fun formula program hprogram => ?_⟩
  obtain ⟨e, hparse, hcall⟩ := Program.call_ofFormula hprogram
  refine ⟨hsize.trans (Program.arity_of_ofFormula hprogram).symm, e, hparse, ?_⟩
  simp only [evaluateWith, hvalues, hprogram, bind, Except.bind, hcall values [] hsize]

/-- The theorem at two bindings of one variable, one of another with white space, and at an unknown
name before a binding that is malformed. -/
theorem bindValues_last_wins_twice :
    let bindings := ["lx=3", " mx = 100 ", "lx=-4"]
    let values : Array Double := #[.zero, .zero, .ofInt _ (-4), .zero, .ofInt _ 100, .zero]
    bindValues .basic bindings = .ok values ∧
      (∀ binding ∈ bindings, ∃ name number, Binds .basic binding name number) ∧
      EndsUp .basic bindings "lx" (.ofInt _ (-4)) ∧ EndsUp .basic bindings "my" .zero ∧
      (∃ e, Expr.parse Variant.basic.schema "lx + mx" = .ok e ∧
        evaluateWith .basic "lx + mx" bindings =
          .ok (e.eval (Variant.basic.schema.valueOf values))) ∧
      bindValues .basic ["x=1", "q=1", "y"] = .error (.unknownVariable "q" .basic) ∧
      ∃ before binding after, ["x=1", "q=1", "y"] = before ++ binding :: after ∧
        (∀ b ∈ before, ∃ name number, Binds .basic b name number) ∧
        Refuses .basic binding (.unknownVariable "q" .basic) := by
  intro bindings values
  have hvalues : bindValues .basic bindings = .ok values := by decide +kernel
  have hrefused : bindValues .basic ["x=1", "q=1", "y"] = .error (.unknownVariable "q" .basic) := by
    decide +kernel
  obtain ⟨hgood, hok, -⟩ := bindValues_last_wins .basic bindings
  obtain ⟨-, -, herror⟩ := bindValues_last_wins .basic ["x=1", "q=1", "y"]
  obtain ⟨-, hends, hprogram⟩ := hok values hvalues
  have hcompile : Program.ofFormula Variant.basic.schema "lx + mx" =
      .ok ⟨"lx + mx", 6, [.load 2, .load 4, .binary .add], 2⟩ := by decide +kernel
  exact ⟨hvalues, hgood.mp ⟨values, hvalues⟩, (hends 2 "lx" rfl _).mp rfl,
    (hends 5 "my" rfl _).mp rfl, (hprogram _ _ hcompile).2, hrefused, (herror _).mp hrefused⟩

end

end PenFilter
