import PenFilter.Proofs.Formula.Operands
import PenFilter.Proofs.Stage.Memory
import PenFilter.Proofs.Stage.Report

/-! # The states of a stage

A stage that is reached by any events is in one of two states.  Either no settings have been
accepted yet, and it has no filters and an empty memory without room.  Or it is ready
(`Stage.Ready`): its filters are complete for their variant (`FilterSet.Complete`), and the memory
has room for the positions that the variant reads.  A stage that is ready stays so.

`Stage.ready_or_unused_run` is the invariant of all runs.  It follows from what is known of compiled
filters (`FilterSet.complete_of_compile`) and of well-formed stages. -/

namespace PenFilter

/-! ### Complete sets of filters -/

/-- A set has a filter for each channel of its variant.  The programs take the variables of the
variant and need no others, and they complete whatever the values are. -/
structure FilterSet.Complete (filters : FilterSet) : Prop where
  channels : filters.channels.map (·.channel) = filters.variant.channels
  arity : ∀ f ∈ filters.channels, f.program.arity = filters.variant.arity
  slots : ∀ f ∈ filters.channels, ∀ slot, Instr.load slot ∈ f.program.code →
    slot < filters.variant.arity
  maxStack_le : ∀ f ∈ filters.channels, f.program.maxStack ≤ filters.maxStack
  maxStack_eq : ∃ f ∈ filters.channels, f.program.maxStack = filters.maxStack
  completes : ∀ f ∈ filters.channels, ∀ values : Array Double,
    values.size = filters.variant.arity → f.program.Completes values

namespace FilterSet

/-- The deepest stack that is kept in a set is the greatest of those of its programs. -/
theorem max?_maxStack {s : Settings} {filters : FilterSet} (h : (compile s).2 = .ok filters)
    (hne : filters.channels ≠ []) :
    (filters.channels.map (·.program.maxStack)).max? = some filters.maxStack := by
  have hdepths : filters.channels.map (·.program.maxStack) ≠ [] := by simpa using hne
  obtain ⟨deepest, hdeepest⟩ :=
    Option.ne_none_iff_exists'.mp (mt List.max?_eq_none_iff.mp hdepths)
  rw [maxStack_of_compile h, hdeepest, Option.getD_some]

theorem complete_of_compile {s : Settings} {filters : FilterSet}
    (h : (compile s).2 = .ok filters) : filters.Complete := by
  obtain ⟨hvariant, -, hserves, -⟩ := serves_of_compile h
  have hchannels := channels_of_compile h
  rw [← hvariant] at hserves
  have hne : filters.channels ≠ [] := by
    intro hempty
    rw [hempty] at hchannels
    cases hv : filters.variant <;> rw [hv] at hchannels <;> cases hchannels
  obtain ⟨hmem, hle⟩ := List.max?_eq_some_iff.mp (max?_maxStack h hne)
  exact
    { channels := hchannels
      arity := fun f hf => by rw [(hserves f hf).arity, Variant.size_schema]
      slots := fun f hf slot hload => by
        rw [← Variant.size_schema]
        exact Program.lt_size_of_load_mem (hserves f hf).ofFormula_active hload
      maxStack_le := fun f hf => hle _ (List.mem_map_of_mem hf)
      maxStack_eq := List.mem_map.mp hmem
      completes := fun f hf values hvalues => by
        rw [← Variant.size_schema] at hvalues
        exact Program.completes_ofFormula (hserves f hf).ofFormula_active hvalues }

end FilterSet

namespace Stage

/-! ### Accepted settings -/

/-- Whether an event gives settings that the stage accepts. -/
def accepts : Stage × Event → Bool
  | (s, .configure settings) => (s.configure settings).2.2.isOk
  | (_, .process _) | (_, .setTablet _) | (_, .resetHistory) => false

/-- Whether an event is a report. -/
def Event.isReport : Event → Bool
  | process _ => true
  | configure _ | setTablet _ | resetHistory => false

/-- Settings that are refused leave a stage as it is; settings that are accepted leave a set of
filters in use. -/
theorem isSome_filters_configure (s : Stage) (settings : Settings) :
    (s.configure settings).1.filters.isSome =
      (s.filters.isSome || (s.configure settings).2.2.isOk) := by
  rcases configure_outcomes s settings with ⟨current, hcurrent, hkept⟩ | ⟨error, -, hfailed⟩ |
    ⟨filters, -, hnew⟩
  · rw [hkept, hcurrent]
    rfl
  · rw [hfailed]
    exact (Bool.or_false _).symm
  · rw [hnew]
    exact (Bool.or_true _).symm

theorem isSome_filters_after (s : Stage) (e : Event) :
    (s.after e).filters.isSome = (s.filters.isSome || accepts (s, e)) := by
  cases e with
  | configure settings => exact isSome_filters_configure s settings
  | process raw => rw [Stage.after, filters_process, accepts, Bool.or_false]
  | setTablet tablet => exact (Bool.or_false _).symm
  | resetHistory => exact (Bool.or_false _).symm

/-- A stage has filters once settings have been accepted, and from then on. -/
theorem isSome_filters_run (s : Stage) (events : List Event) :
    (s.run events).filters.isSome = (s.filters.isSome || (s.trace events).any accepts) := by
  induction events generalizing s with
  | nil => exact (Bool.or_false _).symm
  | cons e events ih =>
      have hrest : (s.run (e :: events)).filters.isSome = _ := ih (s.after e)
      rw [hrest, isSome_filters_after, trace, List.any_cons, Bool.or_assoc]

/-! ### The memory of a stage without filters -/

/-- A stage without filters has no room for anything, and remembers nothing. -/
def Unused (s : Stage) : Prop := s.filters = none → s.history = .ofCapacity 0

theorem Unused.after {s : Stage} (hs : s.Unused) (e : Event) : (s.after e).Unused := by
  intro hnone
  have hunused : s.filters = none ∧ accepts (s, e) = false := by
    have hafter := isSome_filters_after s e
    rw [hnone] at hafter
    simpa using hafter.symm
  have hhistory := hs hunused.1
  cases e with
  | configure settings =>
      rcases configure_cases s settings with hkept | ⟨filters, -, hinstalled⟩
      · rw [Stage.after, hkept, hhistory]
      · rw [Stage.after, hinstalled] at hnone
        cases hnone
  | process raw => simp [Stage.after, process, hunused.1, hhistory]
  | setTablet tablet => exact hhistory
  | resetHistory =>
      rw [Stage.after, resetHistory, hhistory]
      rfl

theorem Unused.run {s : Stage} (hs : s.Unused) (events : List Event) : (s.run events).Unused := by
  induction events generalizing s with
  | nil => exact hs
  | cons e events ih => exact ih (hs.after e)

/-! ### Reports -/

theorem consumed_after (s : Stage) (e : Event) :
    (s.after e).consumed = s.consumed + if e.isReport then 1 else 0 := by
  cases e with
  | configure settings =>
      rcases configure_cases s settings with hkept | ⟨filters, -, hinstalled⟩
      · rw [Stage.after, hkept]
        rfl
      · rw [Stage.after, hinstalled]
        rfl
  | process raw => cases h : s.filters <;> simp [Stage.after, process, h, Event.isReport]
  | setTablet tablet => rfl
  | resetHistory => rfl

theorem consumed_run (s : Stage) (events : List Event) :
    (s.run events).consumed = s.consumed + events.countP Event.isReport := by
  induction events generalizing s with
  | nil => rfl
  | cons e events ih =>
      have hrest : (s.run (e :: events)).consumed = _ := ih (s.after e)
      rw [hrest, consumed_after, List.countP_cons]
      omega

/-! ### Stages that are ready -/

/-- A stage has a complete set of filters in use and the memory that these need.  Whatever report
comes next, each program completes with the values that are gathered for it, and whatever happens
next, the stage has filters. -/
structure Ready (s : Stage) (filters : FilterSet) : Prop where
  inUse : s.filters = some filters
  complete : filters.Complete
  capacity : s.history.samples.capacity = filters.variant.sampleCapacity
  completes : ∀ raw : Report, ∀ f ∈ filters.channels,
    f.program.Completes (filters.variant.gather raw s.history s.tablet s.workspace.values)
  stays : ∀ more : List Event, (s.run more).filters.isSome

theorem WellFormed.ready {s : Stage} (hs : s.WellFormed) {known : List Settings}
    (huse : s.InUse known) {filters : FilterSet} (hfilters : s.filters = some filters) :
    s.Ready filters := by
  obtain ⟨settings, -, hcompile⟩ := huse filters hfilters
  have hcomplete := FilterSet.complete_of_compile hcompile
  exact
    { inUse := hfilters
      complete := hcomplete
      capacity := by
        rw [hs.capacity, variant?, hfilters]
        rfl
      completes := fun raw f hf => hcomplete.completes f hf _ (Variant.size_gather _ _ _ _ _)
      stays := fun more => by rw [isSome_filters_run, hfilters, Option.isSome_some, Bool.true_or] }

/-- **A stage is unused or ready.**  After every sequence of events either no settings have been
accepted, and the stage is without filters and without memory; or some have, and the stage is
ready, now and ever after.  The count of the reports is exact in both states, and consuming a report
is the event of processing it. -/
theorem ready_or_unused_run (tablet : Tablet) (events : List Event) :
    (((ofTablet tablet).run events).filters = none ∧
        ((ofTablet tablet).trace events).any accepts = false ∧
        ((ofTablet tablet).run events).history = .ofCapacity 0 ∨
      ∃ filters, ((ofTablet tablet).run events).Ready filters ∧
        ((ofTablet tablet).trace events).any accepts = true) ∧
    ((ofTablet tablet).run events).consumed = events.countP Event.isReport ∧
    ∀ raw sink, (((ofTablet tablet).run events).consume raw sink).1 =
      (ofTablet tablet).run (events ++ [.process raw]) := by
  have haccepted := isSome_filters_run (ofTablet tablet) events
  refine ⟨?_, (consumed_run _ _).trans (Nat.zero_add _), fun raw sink => ?_⟩
  · cases hfilters : ((ofTablet tablet).run events).filters with
    | none =>
        rw [hfilters] at haccepted
        have hunused : (ofTablet tablet).Unused := fun _ => rfl
        exact .inl ⟨rfl, haccepted.symm, hunused.run events hfilters⟩
    | some filters =>
        rw [hfilters] at haccepted
        have hmem : ∀ e ∈ events, ∀ settings, e.settings? = some settings →
            settings ∈ events.filterMap Event.settings? :=
          fun e he settings hsettings => List.mem_filterMap.mpr ⟨e, he, hsettings⟩
        have huse := (inUse_ofTablet tablet (events.filterMap Event.settings?)).run hmem
        exact .inr ⟨filters, ((wellFormed_ofTablet tablet).run events).ready huse hfilters,
          haccepted.symm⟩
  · rw [run_concat]
    rfl

end Stage

end PenFilter
