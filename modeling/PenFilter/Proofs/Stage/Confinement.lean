import PenFilter.Proofs.Stage.Position

/-! # Variants on positions only

A variant other than the extended one has variables that stand for positions only, and drives the
two coordinates only (`Stage.OnlyPositions`).  Two stages that have the same filters of this kind
and agree on what tells of positions (`Stage.Confined`) are abreast.  The fingerprint of the set in
use is the same for both, so that settings do the same to either, and confined stages stay so.

The memory takes pressure, tilt and distance too, and may differ in them; they never come back
(`Stage.positions_depend_on_positions`). -/

namespace PenFilter

/-! ### Variants on positions only -/

theorem Variant.capability_of_mem_channels {v : Variant} (hv : v ≠ .extended) {c : Channel}
    (hc : c ∈ v.channels) : c.capability = .position := by
  cases v with
  | basic | multiSample n => rcases List.mem_pair.mp hc with rfl | rfl <;> rfl
  | extended => exact absurd rfl hv

theorem Settings.filterVariant_ne_extended {s : Settings} (h : s.variant ≠ .extended) :
    s.filterVariant ≠ .extended := by
  unfold filterVariant
  cases hvariant : s.variant with
  | basic | multiSample => exact nofun
  | extended => exact absurd hvariant h

/-- What a report says besides the position. -/
def Report.withoutPosition (r : Report) : Report := { r with position := none }

theorem Channel.withoutPosition_write {c : Channel} (hc : c.capability = .position) (r : Report)
    (value : Double) : (c.write r value).withoutPosition = r.withoutPosition := by
  cases c with
  | x | y => rfl
  | pressure | tiltX | tiltY => cases hc

namespace Stage

variable {s t : Stage}

/-- The filters in use, if there are any, read positions and drive positions only. -/
def OnlyPositions (s : Stage) : Prop :=
  ∀ filters, s.filters = some filters → filters.variant ≠ .extended

theorem onlyPositions_ofTablet (tablet : Tablet) : (ofTablet tablet).OnlyPositions := nofun

theorem OnlyPositions.install {filters : FilterSet} {settings : Settings}
    (hcompile : (FilterSet.compile settings).2 = .ok filters)
    (hsettings : settings.variant ≠ .extended) (s : Stage) :
    (s.install filters).OnlyPositions := by
  rintro current ⟨⟩
  rw [(FilterSet.serves_of_compile hcompile).1]
  exact Settings.filterVariant_ne_extended hsettings

theorem OnlyPositions.after (h : s.OnlyPositions) {e : Event}
    (he : ∀ settings, e.settings? = some settings → settings.variant ≠ .extended) :
    (s.after e).OnlyPositions := by
  cases e with
  | configure settings =>
      rcases configure_cases s settings with hkept | ⟨filters, hcompile, hinstalled⟩
      · rw [Stage.after, hkept]
        exact h
      · rw [Stage.after, hinstalled]
        exact .install hcompile (he settings rfl) s
  | process raw =>
      intro current hcurrent
      rw [Stage.after, filters_process] at hcurrent
      exact h current hcurrent
  | setTablet tablet => exact h
  | resetHistory => exact h

/-- What a report says besides the position is passed on. -/
theorem OnlyPositions.withoutPosition_process (h : s.OnlyPositions) (hs : s.WellFormed)
    (raw : Report) : (s.process raw).2.withoutPosition = raw.withoutPosition := by
  cases hfilters : s.filters with
  | none => simp only [Stage.process, hfilters]
  | some filters =>
      simp only [Stage.process, hfilters]
      apply observe_foldl_runChannel
      intro f hf r value
      have hmem : f.channel ∈ filters.variant.channels := by
        rw [← hs.channels filters hfilters]
        exact List.mem_map_of_mem hf
      exact Channel.withoutPosition_write
        (Variant.capability_of_mem_channels (h filters hfilters) hmem) r value

/-- An answer to an event; a report is passed on with all that it says besides the position. -/
inductive Answer.KeepsRest : Event → Answer → Prop
  | passed {raw report : Report} :
    report.withoutPosition = raw.withoutPosition → KeepsRest (.process raw) (.passed report)
  | configured (settings : Settings) (reported : List Rejection)
    (result : Except SettingsError Outcome) :
    KeepsRest (.configure settings) (.configured reported result)
  | setTablet (tablet : Tablet) : KeepsRest (.setTablet tablet) .silent
  | resetHistory : KeepsRest .resetHistory .silent

theorem OnlyPositions.course (h : s.OnlyPositions) (hs : s.WellFormed) {events : List Event}
    (hevents : ∀ e ∈ events, ∀ settings, e.settings? = some settings →
      settings.variant ≠ .extended) :
    List.Forall₂ (fun e p => p.2.KeepsRest e) events (s.course Stage.configure events) := by
  induction events generalizing s with
  | nil => exact .nil
  | cons e events ih =>
      rw [List.forall_mem_cons] at hevents
      refine .cons ?_ ?_
      · cases e with
        | configure settings => exact .configured settings _ _
        | process raw => exact .passed (h.withoutPosition_process hs raw)
        | setTablet tablet => exact .setTablet tablet
        | resetHistory => exact .resetHistory
      · rw [fst_step_configure]
        exact ih (h.after hevents.1) (hs.after e) hevents.2

/-! ### Two runs on positions only -/

theorem Compiled.samePositions_self (hs : s.Compiled) (honly : s.OnlyPositions)
    {filters : FilterSet} (hfilters : s.filters = some filters) :
    filters.SamePositions filters := by
  intro f hf g hg hchannel _
  obtain rfl : f = g :=
    List.inj_on_of_nodup_map (hs.wellFormed.nodup_channels hfilters) hf hg hchannel
  obtain ⟨known, huse⟩ := hs.inUse
  obtain ⟨e, hparse, -⟩ := (hs.wellFormed.applies huse hfilters {} #[]).value f hf
  exact ⟨e, hparse, hparse,
    (Expr.wellFormed_of_parse hparse).isPositional (honly filters hfilters)⟩

/-- Two stages have the same filters, which are for positions only, and agree on what tells of
positions. -/
structure Confined (s t : Stage) : Prop where
  left : s.Compiled
  right : t.Compiled
  extent : s.tablet.SameExtent t.tablet
  memory : s.history.SamePositions t.history
  filters : s.filters = t.filters
  only : s.OnlyPositions

theorem Confined.abreast (h : s.Confined t) : s.Abreast t where
  left := h.left
  right := h.right
  extent := h.extent
  memory := h.memory
  filters := by
    rw [← h.filters]
    cases hfilters : s.filters with
    | none => exact .none
    | some filters => exact .some (h.left.samePositions_self h.only hfilters)

theorem configure_of_filters_eq (h : s.filters = t.filters) (settings : Settings) :
    (s.configure settings).2 = (t.configure settings).2 ∧
      (((s.configure settings).1 = s ∧ (t.configure settings).1 = t) ∨
        ∃ filters, (FilterSet.compile settings).2 = .ok filters ∧
          (s.configure settings).1 = s.install filters ∧
          (t.configure settings).1 = t.install filters) := by
  unfold configure
  rw [h]
  split
  · exact ⟨rfl, .inl ⟨rfl, rfl⟩⟩
  · split
    · exact ⟨rfl, .inl ⟨rfl, rfl⟩⟩
    · rename_i filters hcompile
      exact ⟨rfl, .inr ⟨filters, by rw [hcompile], rfl, rfl⟩⟩

theorem Confined.history_install (h : s.Confined t) (filters : FilterSet) :
    (s.install filters).history.SamePositions (t.install filters).history := by
  -- both stages keep their memory, or both begin with an empty one
  have hvariant : s.variant? = t.variant? := by rw [variant?, variant?, h.filters]
  by_cases hsame : t.variant? = some filters.variant
  · rw [history_install_of_eq hsame, history_install_of_eq (hvariant.trans hsame)]
    exact h.memory
  · rw [history_install_of_ne hsame, history_install_of_ne (hvariant ▸ hsame)]
    exact ⟨rfl, rfl⟩

theorem Confined.configure (h : s.Confined t) {settings : Settings}
    (hsettings : settings.variant ≠ .extended) :
    (s.configure settings).2 = (t.configure settings).2 ∧
      (s.configure settings).1.Confined (t.configure settings).1 := by
  obtain ⟨hanswer, hcases⟩ := configure_of_filters_eq h.filters settings
  have hleft : (s.configure settings).1.Compiled := h.left.after (.configure settings)
  have hright : (t.configure settings).1.Compiled := h.right.after (.configure settings)
  refine ⟨hanswer, ?_⟩
  rcases hcases with ⟨hs, ht⟩ | ⟨filters, hcompile, hs, ht⟩
  · rw [hs, ht]
    exact h
  · rw [hs] at hleft ⊢
    rw [ht] at hright ⊢
    exact ⟨hleft, hright, h.extent, h.history_install filters, rfl,
      .install hcompile hsettings s⟩

/-- Two events tell the same of positions; settings are the same, and for positions only. -/
inductive Event.Confined : Event → Event → Prop
  | configure {settings : Settings} :
    settings.variant ≠ .extended → Confined (.configure settings) (.configure settings)
  | same {e e' : Event} : e.SamePositions e' → Confined e e'

theorem Event.Confined.variant_ne_extended {e e' : Event} (h : e.Confined e') :
    (∀ settings, e.settings? = some settings → settings.variant ≠ .extended) ∧
      ∀ settings, e'.settings? = some settings → settings.variant ≠ .extended := by
  cases h with
  | configure hsettings =>
      constructor <;>
        · rintro settings ⟨⟩
          exact hsettings
  | same h => cases h <;> exact ⟨nofun, nofun⟩

theorem Event.Confined.forall_mem {events others : List Event}
    (h : List.Forall₂ Event.Confined events others) :
    (∀ e ∈ events, ∀ settings, e.settings? = some settings → settings.variant ≠ .extended) ∧
      ∀ e ∈ others, ∀ settings, e.settings? = some settings → settings.variant ≠ .extended := by
  induction h with
  | nil => exact ⟨nofun, nofun⟩
  | cons he _ ih =>
      rw [List.forall_mem_cons, List.forall_mem_cons]
      exact ⟨⟨he.variant_ne_extended.1, ih.1⟩, he.variant_ne_extended.2, ih.2⟩

theorem Confined.step (h : s.Confined t) {e e' : Event} (he : e.Confined e') :
    (s.step Stage.configure e).2.SamePositions (t.step Stage.configure e').2 ∧
      (s.step Stage.configure e).1.Confined (t.step Stage.configure e').1 := by
  cases he with
  | @configure settings hsettings =>
      obtain ⟨hanswer, hconfined⟩ := h.configure hsettings
      refine ⟨?_, hconfined⟩
      simp only [Stage.step, hanswer]
      exact .configured _ _
  | same he =>
      obtain ⟨hanswer, habreast⟩ := h.abreast.step he
      refine ⟨hanswer, habreast.left, habreast.right, habreast.extent, habreast.memory, ?_, ?_⟩
      · cases he with
        | process hraw => simpa only [Stage.step, filters_process] using h.filters
        | setTablet hextent => exact h.filters
        | resetHistory => exact h.filters
      · rw [fst_step_configure]
        exact h.only.after (Event.Confined.same he).variant_ne_extended.1

theorem Confined.course (h : s.Confined t) {events others : List Event}
    (hevents : List.Forall₂ Event.Confined events others) :
    List.Forall₂ (fun p q => p.2.SamePositions q.2)
      (s.course Stage.configure events) (t.course Stage.configure others) := by
  induction hevents generalizing s t with
  | nil => exact .nil
  | cons he _ ih => exact .cons (h.step he).1 (ih (h.step he).2)

theorem confined_ofTablet {tablet other : Tablet} (h : tablet.SameExtent other) :
    (ofTablet tablet).Confined (ofTablet other) where
  left := compiled_ofTablet tablet
  right := compiled_ofTablet other
  extent := h
  memory := ⟨rfl, rfl⟩
  filters := rfl
  only := onlyPositions_ofTablet tablet

/-- **Filters for positions depend on positions only.**  Take two new stages on tablets with the
same limits for positions, and two runs that tell the same of positions: the same settings for
variants other than the extended one, reports with the same positions, tablets with the same limits
for positions, and resets, in the same order.  Then corresponding reports are passed on with the
same positions, and settings have the same answers.  In either run, what a report says besides its
position is passed on as it came. -/
theorem positions_depend_on_positions {tablet other : Tablet} (hextent : tablet.SameExtent other)
    {events others : List Event} (hevents : List.Forall₂ Event.Confined events others) :
    List.Forall₂ (fun p q => p.2.SamePositions q.2)
        ((ofTablet tablet).course configure events) ((ofTablet other).course configure others) ∧
      List.Forall₂ (fun e p => p.2.KeepsRest e) events
        ((ofTablet tablet).course configure events) ∧
      List.Forall₂ (fun e p => p.2.KeepsRest e) others
        ((ofTablet other).course configure others) := by
  have hboth := Event.Confined.forall_mem hevents
  exact ⟨(confined_ofTablet hextent).course hevents,
    (onlyPositions_ofTablet tablet).course (wellFormed_ofTablet tablet) hboth.1,
    (onlyPositions_ofTablet other).course (wellFormed_ofTablet other) hboth.2⟩

/-- The theorem at two pens on tablets with different limits for pressure: the second one has no
pressure and no tilt, but hovers. -/
theorem positions_depend_on_positions_two_pens :
    let tablet : Tablet := ⟨.ofInt _ 100, .ofInt _ 50, 8191⟩
    let other : Tablet := ⟨.ofInt _ 100, .ofInt _ 50, 0⟩
    let settings : Settings :=
      { variant := .multiSample, x := "(x + x0) / 2", y := "y1", samples := 2 }
    let first : Vec2 := ⟨.ofInt _ 1, .ofInt _ 2⟩
    let second : Vec2 := ⟨.ofInt _ 3, .ofInt _ 4⟩
    let events : List Event :=
      [.configure settings, .process { position := some first, pressure := some 7 }, .resetHistory,
        .process { position := some second, tilt := some first }]
    let others : List Event :=
      [.configure settings, .process { position := some first }, .resetHistory,
        .process { position := some second, hoverDistance := some 9 }]
    tablet.SameExtent other ∧ List.Forall₂ Event.Confined events others ∧
      List.Forall₂ (fun p q => p.2.SamePositions q.2)
        ((ofTablet tablet).course configure events) ((ofTablet other).course configure others) ∧
      List.Forall₂ (fun e p => p.2.KeepsRest e) events
        ((ofTablet tablet).course configure events) := by
  intro tablet other settings first second events others
  have hextent : tablet.SameExtent other := ⟨rfl, rfl⟩
  have hevents : List.Forall₂ Event.Confined events others :=
    .cons (.configure (by decide)) <| .cons (.same (.process rfl)) <|
      .cons (.same .resetHistory) <| .cons (.same (.process rfl)) .nil
  obtain ⟨hpositions, hrest, -⟩ := positions_depend_on_positions hextent hevents
  exact ⟨hextent, hevents, hpositions, hrest⟩

end Stage

end PenFilter
