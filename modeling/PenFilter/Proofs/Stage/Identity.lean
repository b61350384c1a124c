import PenFilter.Proofs.Number.Conversion
import PenFilter.Proofs.Stage.Forgetting
import PenFilter.Proofs.Stage.Report

/-! # Formulas that change nothing

A channel whose formula is refused, or is read as the variable of the channel, keeps its readings:
its value is the reading in double precision, and from there the reading comes back as it was
(`Channel.same_overwrite`).  When this is so for every channel of the variant, reports pass a stage
one by one and unchanged, whatever is in its memory (`Stage.Transparent.consumeAll`).

Two readings are the same here if they have the same bits or are both no numbers. -/

namespace PenFilter

/-! ### Reports that say the same -/

/-- The same bits, or no number on either side. -/
def Single.Same (x y : Single) : Prop := x = y ∨ (x.isNaN ∧ y.isNaN)

structure Vec2.Same (v w : Vec2) : Prop where
  x : v.x.Same w.x
  y : v.y.Same w.y

/-- Two reports carry the same measurements. -/
structure Report.Same (r q : Report) : Prop where
  position : Option.Rel Vec2.Same r.position q.position
  pressure : r.pressure = q.pressure
  tilt : Option.Rel Vec2.Same r.tilt q.tilt
  hoverDistance : r.hoverDistance = q.hoverDistance

inductive Reading.Same : Reading → Reading → Prop
  | coordinate {x y : Single} : x.Same y → Same (.coordinate x) (.coordinate y)
  | count (n : UInt32) : Same (.count n) (.count n)

theorem Reading.same_refl : ∀ r : Option Reading, Option.Rel Reading.Same r r
  | some (.coordinate _) => .some (.coordinate (.inl rfl))
  | some (.count n) => .some (.count n)
  | none => .none

theorem Vec2.same_of_readings {v w : Option Vec2}
    (hx : Option.Rel Reading.Same (v.map (.coordinate ·.x)) (w.map (.coordinate ·.x)))
    (hy : Option.Rel Reading.Same (v.map (.coordinate ·.y)) (w.map (.coordinate ·.y))) :
    Option.Rel Vec2.Same v w := by
  cases v with
  | none =>
      cases w with
      | none => exact .none
      | some w => cases hx
  | some v =>
      cases w with
      | none => cases hx
      | some w =>
          match hx, hy with
          | .some (.coordinate hx), .some (.coordinate hy) => exact .some ⟨hx, hy⟩

theorem eq_of_same_counts {m n : Option UInt32}
    (h : Option.Rel Reading.Same (m.map .count) (n.map .count)) : m = n := by
  cases m with
  | none =>
      cases n with
      | none => rfl
      | some n => cases h
  | some m =>
      cases n with
      | none => cases h
      | some n =>
          match h with
          | .some (.count _) => rfl

theorem Report.same_of_read? {r q : Report}
    (h : ∀ c : Channel, Option.Rel Reading.Same (c.read? r) (c.read? q))
    (hdistance : r.hoverDistance = q.hoverDistance) : r.Same q where
  position := Vec2.same_of_readings (h .x) (h .y)
  pressure := eq_of_same_counts (h .pressure)
  tilt := Vec2.same_of_readings (h .tiltX) (h .tiltY)
  hoverDistance := hdistance

theorem Report.Same.refl (r : Report) : r.Same r :=
  Report.same_of_read? (fun _ => Reading.same_refl _) rfl

/-! ### The variable of a channel -/

namespace Channel

/-- The variable that the identity of a channel names. -/
def input : Channel → Variable
  | x => .x
  | y => .y
  | pressure => .pressure
  | tiltX => .tiltX
  | tiltY => .tiltY

theorem name_input (c : Channel) : c.input.name = c.identity := by cases c <;> rfl

end Channel

theorem Single.same_toSingle_toDouble (x : Single) : x.Same x.toDouble.toSingle := by
  cases hx : x.isNaN with
  | false => exact .inl (toSingle_toDouble hx).symm
  | true => exact .inr ⟨hx, isNaN_toSingle_toDouble hx⟩

theorem Reading.same_overwrite_coordinate (x : Single) :
    (coordinate x).Same ((coordinate x).overwrite x.toDouble) :=
  .coordinate x.same_toSingle_toDouble

theorem Reading.overwrite_count_ofNat (n : UInt32) :
    (count n).overwrite (.ofNat n.toNat) = count n := by
  rw [overwrite_count, Double.nearestUInt32_ofNat, ite_self]

theorem Channel.same_overwrite {c : Channel} {raw : Report} {r : Reading} (h : c.read? raw = some r)
    (memory : History) (tablet : Tablet) :
    r.Same (r.overwrite (c.input.value raw memory tablet)) := by
  cases c with
  | x | y =>
      obtain ⟨v, hv, rfl⟩ := Option.map_eq_some_iff.mp h
      simp only [Channel.input, Variable.value, hv, Option.getD_some]
      exact Reading.same_overwrite_coordinate _
  | pressure =>
      obtain ⟨n, hn, rfl⟩ := Option.map_eq_some_iff.mp h
      simp only [Channel.input, Variable.value, hn, Option.getD_some,
        Reading.overwrite_count_ofNat]
      exact .count n
  | tiltX | tiltY =>
      obtain ⟨v, hv, rfl⟩ := Option.map_eq_some_iff.mp h
      simp only [Channel.input, Variable.value, hv, Option.getD_some]
      exact Reading.same_overwrite_coordinate _

/-! ### Settings that change nothing -/

/-- The formula of every channel is refused, or is read as the variable of the channel. -/
def Settings.Transparent (s : Settings) : Prop :=
  ∀ c ∈ s.filterVariant.channels,
    (∃ error, Program.ofFormula s.filterVariant.schema (s.formula c) = .error error) ∨
      ∃ slot, Expr.parse s.filterVariant.schema (s.formula c) = .ok (.var c.identity slot)

namespace FilterSet

/-- What runs for each channel is the variable of the channel. -/
def Transparent (filters : FilterSet) : Prop :=
  ∀ f ∈ filters.channels, ∃ slot,
    Expr.parse filters.variant.schema f.active = .ok (.var f.channel.identity slot)

theorem transparent_of_compile {s : Settings} {filters : FilterSet}
    (hs : s.Transparent) (h : (compile s).2 = .ok filters) : filters.Transparent := by
  intro f hf
  obtain ⟨hvariant, hchannels, hserves, -⟩ := serves_of_compile h
  have hmem : f.channel ∈ s.filterVariant.channels := by
    rw [← hchannels]
    exact List.mem_map_of_mem hf
  have hfilter := hserves f hf
  rw [hvariant, ChannelFilter.active]
  cases hrejected : f.rejected with
  | some error =>
      obtain ⟨slot, hslot⟩ := Schema.exists_slotOf? (Variant.identity_mem_schema hmem)
      exact ⟨slot, Expr.parse_identity hslot⟩
  | none =>
      rcases hs f.channel hmem with ⟨error, herror⟩ | hidentity
      · rw [← hfilter.formula, hfilter.refused error, hrejected] at herror
        cases herror
      · rw [← hfilter.formula] at hidentity
        exact hidentity

end FilterSet

namespace Stage

/-- The filters in use, if there are any, are those of settings that change nothing. -/
structure Transparent (s : Stage) : Prop where
  wellFormed : s.WellFormed
  inUse : ∃ known, s.InUse known ∧ ∀ settings ∈ known, settings.Transparent

variable {s : Stage}

/-- A channel is given its reading back. -/
theorem Applies.same {filters : FilterSet} (hfilters : filters.Transparent) {raw : Report}
    {memory : History} {tablet : Tablet} {buffer : Array Double}
    (h : s.Applies filters raw (filters.variant.gather raw memory tablet buffer)) :
    raw.Same (s.process raw).2 := by
  refine Report.same_of_read? (fun c => ?_) h.hoverDistance.symm
  by_cases heval : filters.Evaluates raw c
  · obtain ⟨f, hf, rfl⟩ := List.mem_map.mp (h.channels ▸ heval.1)
    obtain ⟨r, hr, hwritten⟩ := h.written f hf heval
    obtain ⟨slot, hparse⟩ := hfilters f hf
    obtain ⟨e, hother, hvalue⟩ := h.value f hf
    rw [hparse] at hother
    cases hother
    have hslot := (Expr.wellFormed_of_parse hparse).resolved (f.channel.identity, slot)
      (by simp [Expr.occurrences])
    have hinput : filters.variant.inputs[slot]? = some f.channel.input := by
      rw [← Variant.slotOf?_name_iff, Channel.name_input]
      exact hslot
    rw [hr, hwritten, hvalue, Expr.eval, Schema.valueOf_of_slotOf? hslot,
      Variant.getElem?_gather hinput, Option.getD_some]
    exact .some (Channel.same_overwrite hr memory tablet)
  · rw [h.kept c heval]
    exact Reading.same_refl _

theorem Transparent.process (h : s.Transparent) (raw : Report) :
    (s.process raw).1.Transparent ∧ raw.Same (s.process raw).2 := by
  obtain ⟨known, huse, hknown⟩ := h.inUse
  have hafter : (s.process raw).1.InUse known := huse.after (e := .process raw) nofun
  refine ⟨⟨h.wellFormed.process raw, known, hafter, hknown⟩, ?_⟩
  cases hfilters : s.filters with
  | none =>
      have hpassed : (s.process raw).2 = raw := by simp [Stage.process, hfilters]
      rw [hpassed]
      exact .refl raw
  | some filters =>
      obtain ⟨settings, hmem, hcompile⟩ := huse filters hfilters
      have htransparent := FilterSet.transparent_of_compile (hknown settings hmem) hcompile
      exact (h.wellFormed.applies huse hfilters raw #[]).same htransparent

/-- A stage takes a list of reports and passes them into a sink. -/
def consumeAll (s : Stage) (raws : List Report) (sink : Sink) : Stage × Sink :=
  raws.foldl (fun p raw => p.1.consume raw p.2) (s, sink)

/-- Whatever reports come, they arrive one for one, in their order and the same. -/
def PassesOn (s : Stage) : Prop :=
  ∀ raws before : List Report, ∃ passed,
    (s.consumeAll raws (.collecting before)).2 = .collecting (before ++ passed) ∧
      List.Forall₂ Report.Same raws passed

theorem Transparent.passesOn (h : s.Transparent) : s.PassesOn := by
  intro raws
  induction raws generalizing s with
  | nil => exact fun before => ⟨[], congrArg _ (List.append_nil before).symm, .nil⟩
  | cons raw raws ih =>
      intro before
      obtain ⟨hafter, hsame⟩ := h.process raw
      obtain ⟨passed, hpassed, hall⟩ := ih hafter (before ++ [(s.process raw).2])
      refine ⟨(s.process raw).2 :: passed, ?_, .cons hsame hall⟩
      rw [List.append_cons]
      exact hpassed

theorem transparent_of_source? {tablet : Tablet} {events : List Event}
    (h : ∀ settings, (ofTablet tablet).source? events = some settings → settings.Transparent) :
    ((ofTablet tablet).run events).Transparent where
  wellFormed := (wellFormed_ofTablet tablet).run events
  inUse := by
    refine ⟨((ofTablet tablet).source? events).toList, ?_, ?_⟩
    · intro filters hfilters
      obtain ⟨settings, hsource, hcompile⟩ := filters_run_eq_some_iff.mp hfilters
      exact ⟨settings, Option.mem_toList.mpr hsource, hcompile⟩
    · intro settings hsettings
      exact h settings (Option.mem_toList.mp hsettings)

/-- Settings that are the only ones a stage was given are the ones it uses, if it uses any. -/
theorem transparent_run_configure {settings : Settings} (h : settings.Transparent)
    (tablet : Tablet) : ((ofTablet tablet).run [.configure settings]).Transparent where
  wellFormed := (wellFormed_ofTablet tablet).run _
  inUse := by
    refine ⟨[settings], (inUse_ofTablet tablet _).run ?_, ?_⟩
    · rintro e he given hgiven
      obtain rfl := List.mem_singleton.mp he
      cases hgiven
      exact List.mem_singleton_self _
    · rintro given hgiven
      rwa [List.mem_singleton.mp hgiven]

/-- **Identities and refused formulas pass reports on.**  When every channel of the variant has a
formula that is refused or is read as the variable of the channel, a stage with these settings
passes all reports on, whether or not the settings are accepted.  So does a stage that has been
through any events, with other settings and reports among them, if the settings that were
compiled last are of this kind. -/
theorem identities_pass_on (tablet : Tablet) :
    (∀ settings : Settings, settings.Transparent →
      ((ofTablet tablet).run [.configure settings]).PassesOn) ∧
    ∀ events : List Event,
      (∀ settings, (ofTablet tablet).source? events = some settings → settings.Transparent) →
      ((ofTablet tablet).run events).PassesOn :=
  ⟨fun _ h => (transparent_run_configure h tablet).passesOn,
    fun _ h => (transparent_of_source? h).passesOn⟩

/-- The theorem at a formula that ends too early and an identity in parentheses, for a report with
a coordinate that is not a number. -/
theorem identities_pass_on_faulty_settings :
    let tablet : Tablet := ⟨.zero, .zero, 0⟩
    let settings : Settings := { variant := .multiSample, x := "(", y := " ( y ) ", samples := 2 }
    let raw : Report := { position := some ⟨.ofInt _ 1, Binary.nan _ true⟩, pressure := some 7 }
    settings.Transparent ∧ ((ofTablet tablet).run [.configure settings]).filters.isSome ∧
      ∃ passed, (((ofTablet tablet).run [.configure settings]).consumeAll [raw, {}]
          (.collecting [])).2 = .collecting passed ∧
        List.Forall₂ Report.Same [raw, {}] passed := by
  intro tablet settings raw
  have htransparent : settings.Transparent := by
    intro c hc
    have hxy : c = .x ∨ c = .y := List.mem_pair.mp hc
    rcases hxy with rfl | rfl
    · have hrefused : Program.ofFormula (Variant.multiSample 2).schema "(" =
          .error (.parse (.unexpectedEnd .operand)) := by cbv
      exact .inl ⟨_, hrefused⟩
    · have hidentity : Expr.parse (Variant.multiSample 2).schema " ( y ) " = .ok (.var "y" 1) := by
        cbv
      exact .inr ⟨1, hidentity⟩
  have hpasses := (identities_pass_on tablet).1 settings htransparent
  exact ⟨htransparent, by decide +kernel, hpasses [raw, {}] []⟩

end Stage

end PenFilter
