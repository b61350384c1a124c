import PenFilter.Proofs.Formula.Extension
import PenFilter.Proofs.Stage.Report

/-! # Positions and what they depend on

Two stages go abreast (`Stage.Abreast`) when they agree on what tells of positions: the limits of
the tablet for positions, the positions in the memory, and the trees that run for the two
coordinates, in which all variables stand for positions.  They may differ in everything else, also
in their variants and in the channels that they drive.  Events that tell the same of positions keep
stages abreast, and what these pass on has the same positions (`Stage.Abreast.course`): the value
of a tree depends on the variables in it only, and no computed value is a variable that stands for
a position. -/

namespace PenFilter

/-! ### What tells of positions -/

/-- The variables that stand for positions and their limits. -/
def Variable.isPositional : Variable → Bool
  | x | y | lastX | lastY | maxX | maxY | sampleX _ | sampleY _ => true
  | pressure | lastPressure | maxPressure | tiltX | tiltY | lastTiltX | lastTiltY
  | hoverDistance | lastHoverDistance | computedX | computedY | computedPressure => false

/-- Two tablets have the same limits for positions. -/
structure Tablet.SameExtent (t u : Tablet) : Prop where
  maxX : t.maxX = u.maxX
  maxY : t.maxY = u.maxY

/-- Two memories hold the same positions. -/
structure History.SamePositions (h k : History) : Prop where
  last : h.lastRaw.position = k.lastRaw.position
  samples : h.samples = k.samples

section

variable {raw other : Report} {h k : History} {t u : Tablet}

theorem Variable.value_congr {v : Variable} (hv : v.isPositional)
    (hraw : raw.position = other.position) (hmemory : h.SamePositions k)
    (hextent : t.SameExtent u) : v.value raw h t = v.value other k u := by
  cases v with
  | x | y => simp only [value, hraw]
  | lastX | lastY => simp only [value, hmemory.last]
  | maxX => simp only [value, hextent.maxX]
  | maxY => simp only [value, hextent.maxY]
  | sampleX age | sampleY age => simp only [value, hmemory.samples]
  | _ => cases hv

theorem History.SamePositions.update (hmemory : h.SamePositions k)
    (hraw : raw.position = other.position) (computed computed' : ComputedSample) :
    (h.update raw computed).SamePositions (k.update other computed') where
  last := by simp only [History.update, hraw, hmemory.last]
  samples := by simp only [History.update, hraw, hmemory.samples]

theorem History.SamePositions.reset (hmemory : h.SamePositions k) :
    h.reset.SamePositions k.reset where
  last := rfl
  samples := by simp only [History.reset, hmemory.samples]

end

theorem Channel.read?_congr {c : Channel} (hc : c.capability = .position) {r q : Report}
    (h : r.position = q.position) : c.read? r = c.read? q := by
  cases c with
  | x | y => simp only [read?, h]
  | pressure | tiltX | tiltY => cases hc

theorem Report.position_eq_of_read? {r q : Report}
    (h : ∀ c : Channel, c.capability = .position → c.read? r = c.read? q) :
    r.position = q.position := by
  have hx := h .x rfl
  have hy := h .y rfl
  unfold Channel.read? at hx hy
  cases hr : r.position with
  | none =>
      cases hq : q.position with
      | none => rfl
      | some w => simp [hr, hq] at hx
  | some v =>
      cases hq : q.position with
      | none => simp [hr, hq] at hx
      | some w =>
          obtain ⟨a, b⟩ := v
          obtain ⟨c, d⟩ := w
          simp_all

/-! ### Filters for positions -/

/-- All variables of a tree stand for positions. -/
def Expr.IsPositional (e : Expr) : Prop :=
  ∀ p ∈ e.occurrences, ∃ v : Variable, v.name = p.1 ∧ v.isPositional

theorem Variant.isPositional_of_mem_inputs {v : Variant} (hv : v ≠ .extended) {input : Variable}
    (hinput : input ∈ v.inputs) : input.isPositional := by
  cases v with
  | basic =>
      revert input
      decide
  | extended => exact absurd rfl hv
  | multiSample n =>
      simp only [inputs, List.mem_append, List.mem_cons, List.not_mem_nil, or_false,
        List.mem_flatMap] at hinput
      rcases hinput with (rfl | rfl | rfl | rfl) | ⟨age, -, rfl | rfl⟩ <;> rfl

theorem Expr.WellFormed.isPositional {e : Expr} {v : Variant} (h : e.WellFormed v.schema)
    (hv : v ≠ .extended) : e.IsPositional := by
  intro p hp
  have hslot := h.resolved p hp
  rw [Schema.slotOf?_eq_some_iff, Schema.nameAt?, Variant.names_schema] at hslot
  obtain ⟨input, hinput, hname⟩ := List.mem_map.mp (List.mem_of_getElem? hslot)
  exact ⟨input, hname, Variant.isPositional_of_mem_inputs hv hinput⟩

/-- Two sets of filters run the same trees for the coordinates of positions, and the variables in
these stand for positions. -/
def FilterSet.SamePositions (filters others : FilterSet) : Prop :=
  ∀ f ∈ filters.channels, ∀ g ∈ others.channels, f.channel = g.channel →
    f.channel.capability = .position →
    ∃ e : Expr, Expr.parse filters.variant.schema f.active = .ok e ∧
      Expr.parse others.variant.schema g.active = .ok e ∧ e.IsPositional

theorem Variant.valueOf_gather {variant : Variant} {input : Variable} {slot : Nat}
    (hslot : variant.schema.slotOf? input.name = some slot) (raw : Report) (h : History)
    (tablet : Tablet) (buffer : Array Double) :
    variant.schema.valueOf (variant.gather raw h tablet buffer) input.name =
      input.value raw h tablet := by
  rw [Schema.valueOf_of_slotOf? hslot, getElem?_gather (slotOf?_name_iff.mp hslot),
    Option.getD_some]

/-- A tree on positions has the same value for all variants that can read it. -/
theorem Expr.eval_gather_congr {e : Expr} (he : e.IsPositional) {v w : Variant}
    (hv : e.WellFormed v.schema) (hw : e.WellFormed w.schema) {raw other : Report}
    {h k : History} {t u : Tablet} (hraw : raw.position = other.position)
    (hmemory : h.SamePositions k) (hextent : t.SameExtent u) (buffer buffer' : Array Double) :
    e.eval (v.schema.valueOf (v.gather raw h t buffer)) =
      e.eval (w.schema.valueOf (w.gather other k u buffer')) := by
  apply eval_congr
  intro p hp
  obtain ⟨input, hname, hpositional⟩ := he p hp
  have hslotv := hv.resolved p hp
  have hslotw := hw.resolved p hp
  rw [← hname] at hslotv hslotw ⊢
  rw [Variant.valueOf_gather hslotv, Variant.valueOf_gather hslotw]
  exact Variable.value_congr hpositional hraw hmemory hextent

/-! ### Stages abreast -/

namespace Stage

variable {s t : Stage}

theorem InUse.mono {known more : List Settings} (h : s.InUse known) (hsub : known ⊆ more) :
    s.InUse more := by
  intro current hcurrent
  obtain ⟨settings, hmem, hcompile⟩ := h current hcurrent
  exact ⟨settings, hsub hmem, hcompile⟩

/-- A stage has one filter for each channel of its variant, all compiled from some settings. -/
structure Compiled (s : Stage) : Prop where
  wellFormed : s.WellFormed
  inUse : ∃ known, s.InUse known

theorem compiled_ofTablet (tablet : Tablet) : (ofTablet tablet).Compiled :=
  ⟨wellFormed_ofTablet tablet, [], inUse_ofTablet tablet []⟩

theorem Compiled.after (hs : s.Compiled) (e : Event) : (s.after e).Compiled := by
  obtain ⟨known, huse⟩ := hs.inUse
  refine ⟨hs.wellFormed.after e, known ++ e.settings?.toList, ?_⟩
  apply (huse.mono (List.subset_append_left _ _)).after
  intro settings hsettings
  exact List.mem_append_right _ (Option.mem_toList.mpr hsettings)

/-- Two stages agree on what tells of positions. -/
structure Abreast (s t : Stage) : Prop where
  left : s.Compiled
  right : t.Compiled
  extent : s.tablet.SameExtent t.tablet
  memory : s.history.SamePositions t.history
  filters : Option.Rel FilterSet.SamePositions s.filters t.filters

theorem Compiled.exists_filter (hs : s.Compiled) {filters : FilterSet}
    (hfilters : s.filters = some filters) {c : Channel} (hc : c.capability = .position) :
    ∃ f ∈ filters.channels, f.channel = c := by
  have howns : c ∈ filters.variant.channels :=
    List.contains_iff_mem.mp (filters.variant.owns_of_position hc)
  rw [← hs.wellFormed.channels filters hfilters] at howns
  exact List.mem_map.mp howns

theorem Abreast.filters_cases (h : s.Abreast t) :
    (s.filters = none ∧ t.filters = none) ∨
    ∃ filters others, s.filters = some filters ∧ t.filters = some others ∧
      filters.SamePositions others := by
  have hfilters := h.filters
  generalize s.filters = a, t.filters = b at hfilters
  cases hfilters with
  | none => exact .inl ⟨rfl, rfl⟩
  | @some filters others hsame => exact .inr ⟨filters, others, rfl, rfl, hsame⟩

theorem Abreast.computed?_eq (h : s.Abreast t) {raw other : Report}
    (hraw : raw.position = other.position) {c : Channel} (hc : c.capability = .position) :
    s.computed? raw c = t.computed? other c := by
  have hhas : raw.has c.capability = other.has c.capability := by
    rw [hc, Report.has, Report.has, hraw]
  rcases h.filters_cases with ⟨hs, ht⟩ | ⟨filters, others, hs, ht, hsame⟩
  · simp only [computed?, hs, ht, Option.bind_none]
  · obtain ⟨f, hf, rfl⟩ := h.left.exists_filter hs hc
    obtain ⟨g, hg, hchannel⟩ := h.right.exists_filter ht hc
    obtain ⟨known, huse⟩ := h.left.inUse
    obtain ⟨known', huse'⟩ := h.right.inUse
    obtain ⟨e, hparse, hvalue⟩ := (h.left.wellFormed.applies huse hs raw #[]).value f hf
    obtain ⟨e', hparse', hvalue'⟩ := (h.right.wellFormed.applies huse' ht other #[]).value g hg
    obtain ⟨d, hd, hd', hpositional⟩ := hsame f hf g hg hchannel.symm hc
    -- both filters run the one tree
    rw [hparse] at hd
    rw [hparse'] at hd'
    cases hd
    cases hd'
    have heval := Expr.eval_gather_congr hpositional (Expr.wellFormed_of_parse hparse)
      (Expr.wellFormed_of_parse hparse') hraw h.memory h.extent #[] #[]
    rw [h.left.wellFormed.computed?_of_mem hs hf, ← hchannel,
      h.right.wellFormed.computed?_of_mem ht hg, hchannel, hhas, hvalue, hvalue', heval]

theorem Abreast.position_process (h : s.Abreast t) {raw other : Report}
    (hraw : raw.position = other.position) :
    (s.process raw).2.position = (t.process other).2.position := by
  apply Report.position_eq_of_read?
  intro c hc
  rw [h.left.wellFormed.read?_process, h.right.wellFormed.read?_process, h.computed?_eq hraw hc,
    Channel.read?_congr hc hraw]

theorem tablet_process (s : Stage) (raw : Report) : (s.process raw).1.tablet = s.tablet := by
  cases hfilters : s.filters with
  | none => simp only [process, hfilters]
  | some filters => simp only [process, hfilters]

theorem Abreast.process (h : s.Abreast t) {raw other : Report}
    (hraw : raw.position = other.position) :
    (s.process raw).1.Abreast (t.process other).1 where
  left := h.left.after (.process raw)
  right := h.right.after (.process other)
  extent := by
    rw [tablet_process, tablet_process]
    exact h.extent
  memory := by
    rcases h.filters_cases with ⟨hs, ht⟩ | ⟨filters, others, hs, ht, -⟩
    · simpa only [Stage.process, hs, ht] using h.memory
    · rw [history_process hs, history_process ht]
      exact h.memory.update hraw _ _
  filters := by
    rw [filters_process, filters_process]
    exact h.filters

/-! ### Runs abreast -/

/-- Two events tell the same of positions; settings are no such event. -/
inductive Event.SamePositions : Event → Event → Prop
  | process {raw other : Report} :
    raw.position = other.position → SamePositions (.process raw) (.process other)
  | setTablet {tablet other : Tablet} :
    tablet.SameExtent other → SamePositions (.setTablet tablet) (.setTablet other)
  | resetHistory : SamePositions .resetHistory .resetHistory

/-- Two answers tell the same of positions. -/
inductive Answer.SamePositions : Answer → Answer → Prop
  | passed {report other : Report} :
    report.position = other.position → SamePositions (.passed report) (.passed other)
  | configured (reported : List Rejection) (result : Except SettingsError Outcome) :
    SamePositions (.configured reported result) (.configured reported result)
  | silent : SamePositions .silent .silent

theorem Abreast.step (h : s.Abreast t) {e e' : Event} (he : e.SamePositions e') :
    (s.step Stage.configure e).2.SamePositions (t.step Stage.configure e').2 ∧
      (s.step Stage.configure e).1.Abreast (t.step Stage.configure e').1 := by
  cases he with
  | process hraw => exact ⟨.passed (h.position_process hraw), h.process hraw⟩
  | setTablet hextent =>
      exact ⟨.silent, h.left.after (.setTablet _), h.right.after (.setTablet _), hextent,
        h.memory, h.filters⟩
  | resetHistory =>
      exact ⟨.silent, h.left.after .resetHistory, h.right.after .resetHistory, h.extent,
        h.memory.reset, h.filters⟩

/-- Stages abreast pass on the same positions for ever. -/
theorem Abreast.course (h : s.Abreast t) {events others : List Event}
    (hevents : List.Forall₂ Event.SamePositions events others) :
    List.Forall₂ (fun p q => p.2.SamePositions q.2)
      (s.course Stage.configure events) (t.course Stage.configure others) := by
  induction hevents generalizing s t with
  | nil => exact .nil
  | cons he _ ih => exact .cons (h.step he).1 (ih (h.step he).2)

end Stage

end PenFilter
