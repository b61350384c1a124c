import PenFilter.Proofs.Channel
import PenFilter.Proofs.Formula.Execution
import PenFilter.Proofs.Stage.Configure
import PenFilter.Proofs.Variant

/-! # What becomes of a report

A stage computes a value for each channel that it drives and whose measurement the report carries
(`Stage.WellFormed.computed?_of_mem`), from the report as it came, the memory before it and the
tablet.  The value is written over the reading of its channel, and all other readings stay
(`Stage.WellFormed.read?_process`): channels that ran before have changed the report and the stack
by then, but neither is where a filter looks. -/

namespace PenFilter

/-- A channel is evaluated for a report if the variant of the filters owns it and the report
carries its measurement. -/
def FilterSet.Evaluates (filters : FilterSet) (raw : Report) (c : Channel) : Prop :=
  c ∈ filters.variant.channels ∧ raw.has c.capability = true

namespace Stage

variable {raw : Report} {values : Array Double} {c : Channel}

/-! ### The channels of a report in turn -/

theorem observe_runChannel {α : Type} {observe : Report → α} {f : ChannelFilter}
    (h : ∀ r value, observe (f.channel.write r value) = observe r) (p : Progress) :
    observe (runChannel raw values p f).report = observe p.report := by
  unfold runChannel
  split
  · exact h _ _
  · rfl

theorem observe_foldl_runChannel {α : Type} {observe : Report → α} {fs : List ChannelFilter}
    (h : ∀ f ∈ fs, ∀ r value, observe (f.channel.write r value) = observe r) (p : Progress) :
    observe (fs.foldl (runChannel raw values) p).report = observe p.report := by
  induction fs generalizing p with
  | nil => rfl
  | cons f fs ih =>
      rw [List.forall_mem_cons] at h
      rw [List.foldl_cons, ih h.2, observe_runChannel h.1]

theorem read?_foldl_runChannel_of_notMem {fs : List ChannelFilter}
    (hc : c ∉ fs.map (·.channel)) (p : Progress) :
    c.read? (fs.foldl (runChannel raw values) p).report = c.read? p.report := by
  refine observe_foldl_runChannel ?_ p
  intro f hf r value
  have hne : f.channel ≠ c := fun hsame => hc (hsame ▸ List.mem_map_of_mem hf)
  exact Channel.read?_write_of_ne hne r value

theorem read?_runChannel_self (p : Progress) (f : ChannelFilter) :
    f.channel.read? (runChannel raw values p f).report =
      if raw.has f.channel.capability then
        (f.channel.read? p.report).map (·.overwrite (f.value values))
      else f.channel.read? p.report := by
  unfold runChannel
  split
  · simp [Channel.read?_write_self, ChannelFilter.value]
  · rfl

/-- The filter of a channel is the only one to touch its reading. -/
theorem read?_foldl_runChannel_of_mem {fs : List ChannelFilter}
    (hfs : (fs.map (·.channel)).Nodup) {f : ChannelFilter} (hf : f ∈ fs) (p : Progress) :
    f.channel.read? (fs.foldl (runChannel raw values) p).report =
      if raw.has f.channel.capability then
        (f.channel.read? p.report).map (·.overwrite (f.value values))
      else f.channel.read? p.report := by
  induction fs generalizing p with
  | nil => cases hf
  | cons g fs ih =>
      rw [List.map_cons, List.nodup_cons] at hfs
      rw [List.foldl_cons]
      rcases List.mem_cons.mp hf with rfl | hlater
      · rw [read?_foldl_runChannel_of_notMem hfs.1, read?_runChannel_self]
      · have hne : g.channel ≠ f.channel := fun hsame =>
          hfs.1 (hsame ▸ List.mem_map_of_mem hlater)
        rw [ih hfs.2 hlater, observe_runChannel (Channel.read?_write_of_ne hne)]

/-! ### One report -/

variable {s : Stage} {filters : FilterSet}

/-- A channel is computed by its filter, for the variables as the report finds them. -/
theorem WellFormed.computed?_of_mem (hs : s.WellFormed) (hfilters : s.filters = some filters)
    {f : ChannelFilter} (hf : f ∈ filters.channels) :
    s.computed? raw f.channel =
      if raw.has f.channel.capability then
        some (f.value (filters.variant.gather raw s.history s.tablet #[]))
      else none := by
  have hfound : filters.channels.find? (·.channel = f.channel) = some f := by
    obtain ⟨before, after, hsplit⟩ := List.append_of_mem hf
    have hnodup := hs.nodup_channels hfilters
    rw [hsplit, List.map_append, List.map_cons, List.nodup_middle, List.nodup_cons] at hnodup
    rw [List.find?_eq_some_iff_append]
    refine ⟨by simp, before, after, hsplit, fun g hg => ?_⟩
    have hne : g.channel ≠ f.channel := fun hsame =>
      hnodup.1 (List.mem_append_left _ (hsame ▸ List.mem_map_of_mem hg))
    simpa using hne
  rw [computed?, hfilters, Option.bind_some, hfound, Option.map_some]

theorem WellFormed.computed?_of_evaluates (hs : s.WellFormed) (hfilters : s.filters = some filters)
    {f : ChannelFilter} (hf : f ∈ filters.channels) (h : filters.Evaluates raw f.channel)
    (buffer : Array Double) :
    s.computed? raw f.channel =
      some (f.value (filters.variant.gather raw s.history s.tablet buffer)) := by
  rw [Variant.gather_buffer, hs.computed?_of_mem hfilters hf, if_pos h.2]

theorem WellFormed.computed?_of_not_evaluates (hs : s.WellFormed)
    (hfilters : s.filters = some filters) {c : Channel} (h : ¬ filters.Evaluates raw c) :
    s.computed? raw c = none := by
  rw [← Option.not_isSome_iff_eq_none, hs.computed?_isSome]
  simpa [owns, variant?, hfilters, Variant.owns, FilterSet.Evaluates] using h

/-- The reading of a channel that is computed is overwritten; all other readings stay. -/
theorem WellFormed.read?_process (hs : s.WellFormed) (raw : Report) (c : Channel) :
    c.read? (s.process raw).2 =
      match s.computed? raw c with
      | some value => (c.read? raw).map (·.overwrite value)
      | none => c.read? raw := by
  cases hfilters : s.filters with
  | none => simp [Stage.process, computed?, hfilters]
  | some filters =>
      simp only [Stage.process, hfilters]
      rw [Variant.gather_buffer]
      by_cases hc : c ∈ filters.channels.map (·.channel)
      · obtain ⟨f, hf, rfl⟩ := List.mem_map.mp hc
        rw [read?_foldl_runChannel_of_mem (hs.nodup_channels hfilters) hf,
          hs.computed?_of_mem hfilters hf]
        split
        · rfl
        · rfl
      · have hnone : s.computed? raw c = none := by
          apply hs.computed?_of_not_evaluates hfilters
          intro heval
          exact hc (hs.channels filters hfilters ▸ heval.1)
        rw [read?_foldl_runChannel_of_notMem hc, hnone]

theorem observe_process {α : Type} (observe : Report → α)
    (h : ∀ (c : Channel) r value, observe (c.write r value) = observe r) (s : Stage)
    (raw : Report) : observe (s.process raw).2 = observe raw := by
  cases hfilters : s.filters with
  | none => simp [process, hfilters]
  | some filters =>
      simp only [process, hfilters]
      exact observe_foldl_runChannel (fun f _ => h f.channel) _

/-! ### Exactly what a report leads to -/

/-- What a stage with filters makes of a report whose variables have the given values. -/
structure Applies (s : Stage) (filters : FilterSet) (raw : Report) (values : Array Double) :
    Prop where
  /-- each channel of the variant has one filter, in order -/
  channels : filters.channels.map (·.channel) = filters.variant.channels
  /-- the value of a filter is the real part of the value of its formula in use -/
  value : ∀ f ∈ filters.channels, ∃ e, Expr.parse filters.variant.schema f.active = .ok e ∧
    f.value values = (e.eval (filters.variant.schema.valueOf values)).re
  /-- the reading of a channel that is evaluated is overwritten with its value -/
  written : ∀ f ∈ filters.channels, filters.Evaluates raw f.channel →
    ∃ r, f.channel.read? raw = some r ∧
      f.channel.read? (s.process raw).2 = some (r.overwrite (f.value values))
  kept : ∀ c, ¬ filters.Evaluates raw c → c.read? (s.process raw).2 = c.read? raw
  has : ∀ k, (s.process raw).2.has k = raw.has k
  hoverDistance : (s.process raw).2.hoverDistance = raw.hoverDistance
  /-- the memory takes the report, and the values before they are rounded -/
  remembered : ∃ computed, (s.process raw).1.history = s.history.update raw computed ∧
    (∀ f ∈ filters.channels, f.channel.capability ≠ .tilt → filters.Evaluates raw f.channel →
      computed.get f.channel = f.value values) ∧
    ∀ c, c.capability ≠ .tilt → ¬ filters.Evaluates raw c →
      computed.get c = s.history.lastComputed.get c
  /-- what the other filters are makes no difference to a channel -/
  independent : ∀ others : FilterSet, others.variant = filters.variant →
    others.channels.map (·.channel) = filters.channels.map (·.channel) →
    ∀ f ∈ filters.channels, f ∈ others.channels →
      f.channel.read? ({ s with filters := some others }.process raw).2 =
        f.channel.read? (s.process raw).2 ∧
      (f.channel.capability ≠ .tilt →
        ({ s with filters := some others }.process raw).1.history.lastComputed.get f.channel =
          (s.process raw).1.history.lastComputed.get f.channel)

theorem history_process (hfilters : s.filters = some filters) (raw : Report) :
    (s.process raw).1.history =
      s.history.update raw (s.process raw).1.history.lastComputed := by
  simp [process, hfilters, History.update]

/-- Filters for the same channels in the place of those in use. -/
theorem WellFormed.exchange (hs : s.WellFormed) (hfilters : s.filters = some filters)
    {others : FilterSet} (hvariant : others.variant = filters.variant)
    (hchannels : others.channels.map (·.channel) = filters.channels.map (·.channel)) :
    { s with filters := some others }.WellFormed where
  channels := by
    rintro current ⟨⟩
    rw [hchannels, hs.channels filters hfilters, hvariant]
  capacity := by simpa [variant?, hfilters, hvariant] using hs.capacity

theorem WellFormed.applies (hs : s.WellFormed) {known : List Settings} (huse : s.InUse known)
    (hfilters : s.filters = some filters) (raw : Report) (buffer : Array Double) :
    s.Applies filters raw (filters.variant.gather raw s.history s.tablet buffer) where
  channels := hs.channels filters hfilters
  value := by
    intro f hf
    obtain ⟨settings, -, hcompile⟩ := huse filters hfilters
    obtain ⟨hvariant, -, hserves, -⟩ := FilterSet.serves_of_compile hcompile
    obtain ⟨e, hparse, hcall⟩ := Program.call_ofFormula (hserves f hf).ofFormula_active
    rw [← hvariant] at hparse hcall
    have hsize : (filters.variant.gather raw s.history s.tablet buffer).size =
        filters.variant.schema.size := by
      rw [Variant.size_gather, Variant.size_schema]
    exact ⟨e, hparse, by rw [ChannelFilter.value, hcall _ _ hsize]⟩
  written := by
    intro f hf heval
    have hcarried : (f.channel.read? raw).isSome := (f.channel.isSome_read? raw).trans heval.2
    obtain ⟨r, hr⟩ := Option.isSome_iff_exists.mp hcarried
    refine ⟨r, hr, ?_⟩
    rw [hs.read?_process, hs.computed?_of_evaluates hfilters hf heval buffer, hr]
    rfl
  kept := by
    intro c heval
    rw [hs.read?_process, hs.computed?_of_not_evaluates hfilters heval]
  has := fun k =>
    observe_process (Report.has · k) (fun c r value => Channel.has_write c r value k) s raw
  hoverDistance := observe_process Report.hoverDistance Channel.hoverDistance_write s raw
  remembered := by
    refine ⟨_, history_process hfilters raw, ?_, ?_⟩
    · intro f hf htilt heval
      rw [hs.get_lastComputed_process raw htilt,
        hs.computed?_of_evaluates hfilters hf heval buffer, Option.getD_some]
    · intro c htilt heval
      rw [hs.get_lastComputed_process raw htilt, hs.computed?_of_not_evaluates hfilters heval,
        Option.getD_none]
  independent := by
    intro others hvariant hchannels f hf hother
    have hwell := hs.exchange hfilters hvariant hchannels
    -- either stage has the same filter for the channel and the same values for it
    have hsame : { s with filters := some others }.computed? raw f.channel =
        s.computed? raw f.channel := by
      rw [hs.computed?_of_mem hfilters hf, hwell.computed?_of_mem rfl hother, hvariant]
    refine ⟨?_, fun htilt => ?_⟩
    · rw [hwell.read?_process, hs.read?_process, hsame]
    · rw [hwell.get_lastComputed_process raw htilt, hs.get_lastComputed_process raw htilt, hsame]

/-- **What one report leads to, exactly.**  A stage that is reached by any events counts the report
once and keeps its filters and its tablet.  Without filters the report and the memory stay as they
are.  With filters, each channel of the variant whose measurement the report carries is overwritten
with the value of its formula, all of them for the same values of the variables; nothing else of
the report changes, and the memory takes the report as it came together with the values before
they are rounded. -/
theorem process_exact (tablet : Tablet) (events : List Event) (raw : Report) :
    let s := (ofTablet tablet).run events
    ((s.process raw).1.consumed = s.consumed + 1 ∧ (s.process raw).1.filters = s.filters ∧
      (s.process raw).1.tablet = s.tablet) ∧
    (s.filters = none → (s.process raw).2 = raw ∧ (s.process raw).1.history = s.history) ∧
    ∀ filters, s.filters = some filters → ∀ buffer,
      s.Applies filters raw (filters.variant.gather raw s.history s.tablet buffer) := by
  intro s
  have hwell : s.WellFormed := (wellFormed_ofTablet tablet).run events
  have huse : s.InUse (events.filterMap Event.settings?) :=
    (inUse_ofTablet tablet _).run fun e he settings hsettings =>
      List.mem_filterMap.mpr ⟨e, he, hsettings⟩
  refine ⟨?_, ?_, fun filters hfilters => hwell.applies huse hfilters raw⟩
  · cases hfilters : s.filters <;> simp [process, hfilters]
  · intro hfilters
    simp [process, hfilters]

/-- The theorem at formulas that exchange the coordinates, where the report has no tilt, and at a
stage that has no filters yet. -/
theorem process_exact_exchange :
    let start := ofTablet ⟨.zero, .zero, 0⟩
    let stage := start.run
      [.configure { variant := .extended, x := "y", y := "x", pressure := "y" }]
    let raw : Report := { position := some ⟨.ofInt _ 1, .ofInt _ 2⟩, pressure := some 7 }
    (∃ filters, stage.filters = some filters ∧
      stage.Applies filters raw (filters.variant.gather raw stage.history stage.tablet #[.one])) ∧
    (stage.process raw).2 =
      { position := some ⟨.ofInt _ 2, .ofInt _ 1⟩, pressure := some 2 } ∧
    ((start.run []).process raw).2 = raw := by
  refine ⟨?_, by decide +kernel, ((process_exact _ [] _).2.1 rfl).1⟩
  obtain ⟨filters, hfilters⟩ : ∃ filters, ((ofTablet ⟨.zero, .zero, 0⟩).run
      [.configure { variant := .extended, x := "y", y := "x", pressure := "y" }]).filters =
        some filters :=
    Option.isSome_iff_exists.mp (by decide +kernel)
  exact ⟨filters, hfilters, (process_exact _ _ _).2.2 filters hfilters #[.one]⟩

end Stage

end PenFilter
