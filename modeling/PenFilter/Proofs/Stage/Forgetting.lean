import PenFilter.Proofs.Stage.Configure
import PenFilter.Proofs.Stage.Memory

/-! # Forgetting

A stage whose memory has just been emptied, by a reset or by settings with another variant, goes on
as a stage that was made for its tablet and given its settings a moment ago.  The two are twins
(`Stage.Twins`): they agree on the tablet, the filters and the memory.  What twins may differ in,
the buffers and the count of the reports, has no influence on their answers, and every event leads
from twins to twins (`Stage.Twins.step`).

The settings of a stage are those that were compiled last (`Stage.source?`), so that the filters in
use are theirs (`Stage.filters_run`). -/

namespace PenFilter

namespace Stage

/-! ### The settings of the set in use -/

/-- The settings of an event, if a set of filters that was compiled from them is installed. -/
def installed? : Stage × Event → Option Settings
  | (s, .configure settings) =>
    match (s.configure settings).2.2 with
    | .ok outcome => if outcome.recompiled then some settings else none
    | .error _ => none
  | (_, .process _) | (_, .setTablet _) | (_, .resetHistory) => none

/-- The settings that were compiled last in a run. -/
def source? (s : Stage) (events : List Event) : Option Settings :=
  (s.trace events).reverse.findSome? installed?

theorem source?_concat (s : Stage) (events : List Event) (e : Event) :
    s.source? (events ++ [e]) = (installed? (s.run events, e)).or (s.source? events) := by
  rw [source?, trace_concat, List.reverse_append, List.reverse_singleton,
    List.singleton_append, List.findSome?_cons]
  cases installed? (s.run events, e) with
  | none => rfl
  | some settings => rfl

theorem exists_compile_of_installed? {s : Stage} {e : Event} {settings : Settings}
    (h : installed? (s, e) = some settings) :
    ∃ filters, (FilterSet.compile settings).2 = .ok filters ∧
      (s.after e).filters = some filters := by
  cases e with
  | configure given =>
      rcases configure_outcomes s given with ⟨current, -, hkept⟩ | ⟨error, -, hfailed⟩ |
        ⟨filters, hcompile, hnew⟩
      · rw [installed?, hkept] at h
        cases h
      · rw [installed?, hfailed] at h
        cases h
      · rw [installed?, hnew] at h
        obtain rfl := Option.some.inj h
        exact ⟨filters, hcompile, by rw [Stage.after, hnew]; rfl⟩
  | process raw => cases h
  | setTablet tablet => cases h
  | resetHistory => cases h

theorem filters_after_of_installed?_eq_none {s : Stage} {e : Event}
    (h : installed? (s, e) = none) : (s.after e).filters = s.filters := by
  cases e with
  | configure given =>
      rcases configure_outcomes s given with ⟨current, -, hkept⟩ | ⟨error, -, hfailed⟩ |
        ⟨filters, -, hnew⟩
      · rw [Stage.after, hkept]
      · rw [Stage.after, hfailed]
      · rw [installed?, hnew] at h
        cases h
  | process raw => exact filters_process s raw
  | setTablet tablet => rfl
  | resetHistory => rfl

/-- The filters in use are those of the settings compiled last. -/
theorem filters_run_eq_some_iff {tablet : Tablet} {events : List Event} {filters : FilterSet} :
    ((ofTablet tablet).run events).filters = some filters ↔
      ∃ settings, (ofTablet tablet).source? events = some settings ∧
        (FilterSet.compile settings).2 = .ok filters := by
  induction events using List.reverseRecOn with
  | nil =>
      constructor
      · intro h
        cases h
      · rintro ⟨settings, h, -⟩
        cases h
  | append_singleton events e ih =>
      rw [run_concat, source?_concat]
      cases hinstalled : installed? ((ofTablet tablet).run events, e) with
      | none => rw [filters_after_of_installed?_eq_none hinstalled, Option.none_or, ih]
      | some settings =>
          obtain ⟨others, hcompile, hafter⟩ := exists_compile_of_installed? hinstalled
          rw [hafter, Option.some_or]
          constructor
          · rintro ⟨⟩
            exact ⟨settings, rfl, hcompile⟩
          · rintro ⟨_, ⟨⟩, h⟩
            rw [hcompile] at h
            cases h
            rfl

theorem exists_compile_of_source? {s : Stage} {events : List Event} {settings : Settings}
    (h : s.source? events = some settings) :
    ∃ filters, (FilterSet.compile settings).2 = .ok filters := by
  obtain ⟨⟨t, e⟩, -, hinstalled⟩ := List.exists_of_findSome?_eq_some h
  obtain ⟨filters, hcompile, -⟩ := exists_compile_of_installed? hinstalled
  exact ⟨filters, hcompile⟩

/-! ### Twins -/

/-- Two stages agree on the tablet, the filters and the memory, and the first has taken `k` reports
more than the second.  Their buffers may hold anything. -/
structure Twins (k : Nat) (s t : Stage) : Prop where
  tablet : s.tablet = t.tablet
  filters : s.filters = t.filters
  history : s.history = t.history
  consumed : s.consumed = t.consumed + k

variable {k : Nat} {s t : Stage}

theorem Twins.process (h : Twins k s t) (raw : Report) :
    (s.process raw).2 = (t.process raw).2 ∧ Twins k (s.process raw).1 (t.process raw).1 := by
  have hconsumed : s.consumed + 1 = t.consumed + 1 + k := by rw [h.consumed]; omega
  cases hfilters : t.filters with
  | none =>
      have hnone := h.filters.trans hfilters
      simp only [Stage.process, hfilters, hnone]
      exact ⟨trivial, ⟨h.tablet, rfl, h.history, hconsumed⟩⟩
  | some filters =>
      have hsome := h.filters.trans hfilters
      simp only [Stage.process, hfilters, hsome, h.tablet, h.history]
      rw [Variant.gather_buffer _ _ _ _ s.workspace.values,
        Variant.gather_buffer _ _ _ _ t.workspace.values]
      let values := filters.variant.gather raw t.history t.tablet #[]
      let start (stack : Stack) : Progress := ⟨raw, t.history.lastComputed, stack⟩
      have houtcome : (filters.channels.foldl (runChannel raw values)
            (start s.workspace.stack)).outcome =
          (filters.channels.foldl (runChannel raw values) (start t.workspace.stack)).outcome := by
        rw [outcome_foldl_runChannel, outcome_foldl_runChannel]
        rfl
      have hcomputed := congrArg Prod.snd houtcome
      refine ⟨congrArg Prod.fst houtcome, ⟨rfl, rfl, ?_, hconsumed⟩⟩
      exact congrArg (t.history.update raw) hcomputed

theorem Twins.install (h : Twins k s t) (filters : FilterSet) :
    Twins k (s.install filters) (t.install filters) where
  tablet := h.tablet
  filters := rfl
  history := by
    have hvariant : s.variant? = t.variant? := by rw [variant?, variant?, h.filters]
    by_cases hsame : t.variant? = some filters.variant
    · rw [history_install_of_eq hsame, history_install_of_eq (hvariant.trans hsame), h.history]
    · rw [history_install_of_ne hsame, history_install_of_ne (hvariant ▸ hsame)]
  consumed := h.consumed

theorem Twins.configure (h : Twins k s t) (settings : Settings) :
    (s.configure settings).2 = (t.configure settings).2 ∧
      Twins k (s.configure settings).1 (t.configure settings).1 := by
  simp only [Stage.configure, h.filters]
  split
  · exact ⟨rfl, h⟩
  · split
    · exact ⟨rfl, h⟩
    · exact ⟨rfl, h.install _⟩

/-- Twins give the same answer to an event, and are twins afterwards. -/
theorem Twins.step (h : Twins k s t) (e : Event) :
    (s.step Stage.configure e).2 = (t.step Stage.configure e).2 ∧
      Twins k (s.step Stage.configure e).1 (t.step Stage.configure e).1 := by
  cases e with
  | configure settings =>
      obtain ⟨hanswer, htwins⟩ := h.configure settings
      refine ⟨?_, htwins⟩
      simp only [Stage.step, hanswer]
  | process raw =>
      obtain ⟨hreport, htwins⟩ := h.process raw
      refine ⟨?_, htwins⟩
      simp only [Stage.step, hreport]
  | setTablet tablet => exact ⟨rfl, ⟨rfl, h.filters, h.history, h.consumed⟩⟩
  | resetHistory => exact ⟨rfl, ⟨h.tablet, h.filters, congrArg History.reset h.history, h.consumed⟩⟩

theorem Twins.course (h : Twins k s t) (events : List Event) :
    List.Forall₂ (fun p q => p.2 = q.2 ∧ Twins k p.1 q.1)
      (s.course Stage.configure events) (t.course Stage.configure events) := by
  induction events generalizing s t with
  | nil => exact .nil
  | cons e events ih => exact .cons (h.step e) (ih (h.step e).2)

/-! ### An emptied memory -/

theorem WellFormed.history_resetHistory (hs : s.WellFormed) {filters : FilterSet}
    (hfilters : s.filters = some filters) :
    s.resetHistory.history = .ofCapacity filters.variant.sampleCapacity := by
  have hcapacity : s.history.samples.capacity = filters.variant.sampleCapacity := by
    rw [hs.capacity, variant?, hfilters]
    rfl
  rw [resetHistory, History.reset, SampleRing.clear, hcapacity]
  rfl

theorem WellFormed.history_of_forgets (hs : s.WellFormed) {e : Event} (h : forgets (s, e))
    {filters : FilterSet} (hfilters : (s.after e).filters = some filters) :
    (s.after e).history = .ofCapacity filters.variant.sampleCapacity := by
  cases e with
  | configure settings =>
      rcases configure_cases s settings with hkept | ⟨others, -, hinstalled⟩
      · rw [forgets, hkept] at h
        simp at h
      · rw [forgets, hinstalled, variant?_install] at h
        have hother : s.variant? ≠ some others.variant := Ne.symm (by simpa using h)
        rw [Stage.after, hinstalled] at hfilters ⊢
        cases hfilters
        exact history_install_of_ne hother
  | process raw => cases h
  | setTablet tablet => cases h
  | resetHistory => exact hs.history_resetHistory hfilters

/-- Settings that can be compiled make a new stage ready for them. -/
theorem configure_ofTablet (tablet : Tablet) {settings : Settings} {filters : FilterSet}
    (h : (FilterSet.compile settings).2 = .ok filters) :
    (ofTablet tablet).run [.configure settings] =
      { tablet
        filters := some filters
        history := .ofCapacity filters.variant.sampleCapacity } := by
  match hresult : FilterSet.compile settings with
  | (reported, .error error) =>
      rw [hresult] at h
      cases h
  | (reported, .ok others) =>
      rw [hresult] at h
      cases h
      have hcompiled : (ofTablet tablet).configure settings = _ := recompile_of_ok hresult
      change ((ofTablet tablet).configure settings).1 = _
      rw [hcompiled]
      rfl

/-- **A stage that forgets is as good as new.**  The filters in use are always those of the settings
compiled last.  After an event that empties the memory, a stage with such settings is a twin of the
stage that is made for its tablet and given the settings: whatever happens next, the two give the
same answers, with the same reports and the same rejections, and have the same memory at each
moment.  Only the count of the reports shows which is which. -/
theorem forgetting_complete (tablet : Tablet) :
    (∀ events filters, ((ofTablet tablet).run events).filters = some filters ↔
      ∃ settings, (ofTablet tablet).source? events = some settings ∧
        (FilterSet.compile settings).2 = .ok filters) ∧
    ∀ (events : List Event) (e : Event) (settings : Settings),
      forgets ((ofTablet tablet).run events, e) →
      (ofTablet tablet).source? (events ++ [e]) = some settings →
      let old := (ofTablet tablet).run (events ++ [e])
      let new := (ofTablet old.tablet).run [.configure settings]
      Twins old.consumed old new ∧
        ∀ more, List.Forall₂ (fun p q => p.2 = q.2 ∧ Twins old.consumed p.1 q.1)
          (old.course configure more) (new.course configure more) := by
  refine ⟨fun _ _ => filters_run_eq_some_iff, ?_⟩
  intro events e settings hforgets hsource old new
  obtain ⟨filters, hcompile⟩ := exists_compile_of_source? hsource
  have hfilters : old.filters = some filters :=
    filters_run_eq_some_iff.mpr ⟨settings, hsource, hcompile⟩
  have hhistory : old.history = .ofCapacity filters.variant.sampleCapacity := by
    simp only [old, run_concat] at hfilters ⊢
    exact ((wellFormed_ofTablet tablet).run events).history_of_forgets hforgets hfilters
  have htwins : Twins old.consumed old new := by
    simp only [new, configure_ofTablet _ hcompile]
    exact ⟨rfl, hfilters, hhistory, (Nat.zero_add _).symm⟩
  exact ⟨htwins, htwins.course⟩

/-- The theorem at a stage that has taken a position into its memory, and is then reset, or given
settings with another variant. -/
theorem forgetting_complete_one_position :
    let tablet : Tablet := ⟨.zero, .zero, 0⟩
    let former : Settings := { variant := .multiSample, x := "x0", samples := 2 }
    let later : Settings := { x := "x + lx", y := "(" }
    let events : List Event := [.configure former, .process { position := some ⟨.zero, .zero⟩ }]
    let empty := (ofTablet tablet).run (events ++ [.resetHistory])
    let other := (ofTablet tablet).run (events ++ [.configure later])
    forgets ((ofTablet tablet).run events, .resetHistory) ∧
      (ofTablet tablet).source? (events ++ [.resetHistory]) = some former ∧
      Twins empty.consumed empty ((ofTablet empty.tablet).run [.configure former]) ∧
      forgets ((ofTablet tablet).run events, .configure later) ∧
      (ofTablet tablet).source? (events ++ [.configure later]) = some later ∧
      ∀ more, List.Forall₂ (fun p q => p.2 = q.2 ∧ Twins other.consumed p.1 q.1)
        (other.course configure more)
        (((ofTablet other.tablet).run [.configure later]).course configure more) := by
  intro tablet former later events empty other
  have hformer : (ofTablet tablet).source? (events ++ [.resetHistory]) = some former := by
    decide +kernel
  have hlater : (ofTablet tablet).source? (events ++ [.configure later]) = some later := by
    decide +kernel
  have hforgets : forgets ((ofTablet tablet).run events, .configure later) = true := by
    decide +kernel
  have hempty := (forgetting_complete tablet).2 events .resetHistory former rfl hformer
  have hother := (forgetting_complete tablet).2 events (.configure later) later hforgets hlater
  exact ⟨rfl, hformer, hempty.1, hforgets, hlater, hother.2⟩

end Stage

end PenFilter
