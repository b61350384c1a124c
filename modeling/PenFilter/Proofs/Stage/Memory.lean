import Mathlib.Data.List.Induction
import PenFilter.Proofs.Stage.Process

/-! # The memory of a stage and the log of its reports

`Stage.log` is the list of the reports that a stage has filtered since its memory was last
emptied, the latest first, each with the stage that it met.  Only a reset and settings with
another variant empty the memory (`Stage.forgets`).  `Stage.Remembers` says what a memory holds
of a log, and `Stage.run_remembers_log` that the memory of a stage holds this of its own log
after every sequence of events: an event lengthens the log, empties it or leaves it
(`Stage.log_concat`), and the memory follows (`Stage.Recalls.after`). -/

namespace PenFilter

namespace Stage

/-! ### The log -/

/-- The events of a run, each with the stage that it meets. -/
def trace (s : Stage) : List Event → List (Stage × Event)
  | [] => []
  | e :: events => (s, e) :: (s.after e).trace events

/-- Whether an event empties the memory: a reset, or settings that put another variant in the
place of the one in use. -/
def forgets : Stage × Event → Bool
  | (s, .configure settings) => (s.configure settings).1.variant? != s.variant?
  | (_, .resetHistory) => true
  | (_, .process _) | (_, .setTablet _) => false

/-- The report of an event, if the stage filters it. -/
def filtered? : Stage × Event → Option (Stage × Report)
  | (s, .process raw) => if s.filters.isSome then some (s, raw) else none
  | _ => none

/-- The reports filtered since the memory was last emptied, the latest first, each with the
stage that it met. -/
def log (s : Stage) (events : List Event) : List (Stage × Report) :=
  ((s.trace events).reverse.takeWhile (!forgets ·)).filterMap filtered?

theorem run_concat (s : Stage) (events : List Event) (e : Event) :
    s.run (events ++ [e]) = (s.run events).after e := by
  simp [run]

theorem trace_concat (s : Stage) (events : List Event) (e : Event) :
    s.trace (events ++ [e]) = s.trace events ++ [(s.run events, e)] := by
  induction events generalizing s with
  | nil => rfl
  | cons first events ih =>
      simp only [List.cons_append, trace, ih]
      rfl

theorem log_concat (s : Stage) (events : List Event) (e : Event) :
    s.log (events ++ [e]) =
      if forgets (s.run events, e) then []
      else (filtered? (s.run events, e)).toList ++ s.log events := by
  rw [log, trace_concat, List.reverse_append, List.reverse_singleton, List.singleton_append,
    List.takeWhile_cons]
  cases forgets (s.run events, e) with
  | true => rfl
  | false =>
      cases h : filtered? (s.run events, e) with
      | none => simp [log, h]
      | some entry => simp [log, h]

/-! ### What the memory holds of a log -/

/-- A value is the one computed for a channel at the latest report of a log that carries the
channel's measurement; it is zero if there is no such report. -/
def LastComputed (log : List (Stage × Report)) (c : Channel) (value : Double) : Prop :=
  match log.find? (·.2.has c.capability) with
  | none => value = .zero
  | some (s, raw) => s.computed? raw c = some value

/-- The latest measurements of a log, zero for what no report carries. -/
def latest (log : List (Stage × Report)) : RawSample where
  position := (log.findSome? (·.2.position)).getD .zero
  pressure := (log.findSome? (·.2.pressure)).getD 0
  tilt := (log.findSome? (·.2.tilt)).getD .zero
  hoverDistance := (log.findSome? (·.2.hoverDistance)).getD 0

/-- A stage remembers the reports of a log: the latest raw value of each measurement, as many
of the latest positions as its variant reads, and the computed values of the latest reports that
have them. -/
structure Remembers (s : Stage) (log : List (Stage × Report)) : Prop where
  raw : s.history.lastRaw = latest log
  capacity : s.history.samples.capacity = (s.variant?.map Variant.sampleCapacity).getD 0
  samples : s.history.samples.Holds (log.filterMap (·.2.position))
  computedX : LastComputed log .x s.history.lastComputed.x
  computedY : LastComputed log .y s.history.lastComputed.y
  computedPressure :
    if s.owns .pressure then LastComputed log .pressure s.history.lastComputed.pressure
    else s.history.lastComputed.pressure = .zero

/-- What every event preserves.  Nothing is computed for a channel that the variant does not
own, and a stage without filters has no log. -/
structure Recalls (s : Stage) (log : List (Stage × Report)) : Prop where
  wellFormed : s.WellFormed
  raw : s.history.lastRaw = latest log
  samples : s.history.samples.Holds (log.filterMap (·.2.position))
  computed : ∀ c : Channel, c.capability ≠ .tilt →
    if s.owns c then LastComputed log c (s.history.lastComputed.get c)
    else s.history.lastComputed.get c = .zero
  unused : s.filters = none → log = []

variable {s : Stage} {log : List (Stage × Report)} {raw : Report}

/-! ### Longer logs -/

theorem latest_cons : latest ((s, raw) :: log) =
    { position := raw.position.getD (latest log).position
      pressure := raw.pressure.getD (latest log).pressure
      tilt := raw.tilt.getD (latest log).tilt
      hoverDistance := raw.hoverDistance.getD (latest log).hoverDistance } := by
  have hcons : ∀ {α : Type} (f : Report → Option α) (d : α),
      (((s, raw) :: log).findSome? (f ·.2)).getD d =
        (f raw).getD ((log.findSome? (f ·.2)).getD d) := by
    intro α f d
    rw [List.findSome?_cons]
    cases f raw <;> rfl
  simp only [latest, hcons Report.position, hcons Report.pressure, hcons Report.tilt,
    hcons Report.hoverDistance]

theorem lastComputed_cons_of_has {c : Channel} {value : Double}
    (h : raw.has c.capability = true) :
    LastComputed ((s, raw) :: log) c value ↔ s.computed? raw c = some value := by
  simp [LastComputed, h]

theorem lastComputed_cons_of_not_has {c : Channel} {value : Double}
    (h : raw.has c.capability = false) :
    LastComputed ((s, raw) :: log) c value ↔ LastComputed log c value := by
  simp [LastComputed, h]

/-! ### What an event does -/

theorem recalls_nil (hs : s.WellFormed) (hraw : s.history.lastRaw = {})
    (hsamples : s.history.samples.Holds []) (hcomputed : s.history.lastComputed = {}) :
    s.Recalls [] where
  wellFormed := hs
  raw := hraw
  samples := hsamples
  computed := by
    intro c hc
    have hzero : s.history.lastComputed.get c = .zero := by
      rw [hcomputed]
      cases c <;> rfl
    split
    · exact hzero
    · exact hzero
  unused := fun _ => rfl

theorem recalls_ofTablet (tablet : Tablet) : (ofTablet tablet).Recalls [] :=
  recalls_nil (wellFormed_ofTablet tablet) rfl (SampleRing.holds_ofCapacity 0) rfl

/-- Filters of another variant begin with an empty log. -/
theorem Recalls.install_of_ne (hs : s.Recalls log) {filters : FilterSet}
    (hchannels : filters.channels.map (·.channel) = filters.variant.channels)
    (h : s.variant? ≠ some filters.variant) : (s.install filters).Recalls [] := by
  have hhistory := history_install_of_ne h
  apply recalls_nil (hs.wellFormed.install hchannels)
  · rw [hhistory]
    rfl
  · rw [hhistory]
    exact SampleRing.holds_ofCapacity _
  · rw [hhistory]
    rfl

/-- Filters of the same variant go on with the log. -/
theorem Recalls.install_of_eq (hs : s.Recalls log) {filters : FilterSet}
    (hchannels : filters.channels.map (·.channel) = filters.variant.channels)
    (h : s.variant? = some filters.variant) : (s.install filters).Recalls log where
  wellFormed := hs.wellFormed.install hchannels
  raw := by
    rw [history_install_of_eq h]
    exact hs.raw
  samples := by
    rw [history_install_of_eq h]
    exact hs.samples
  computed := by
    have howns : (s.install filters).owns = s.owns := by
      funext c
      rw [owns, owns, variant?_install, h]
    rw [howns, history_install_of_eq h]
    exact hs.computed
  unused := by
    intro hnone
    cases hnone

/-- A report that is filtered becomes the latest of the log. -/
theorem Recalls.process (hs : s.Recalls log) {filters : FilterSet}
    (hfilters : s.filters = some filters) (raw : Report) :
    (s.process raw).1.Recalls ((s, raw) :: log) where
  wellFormed := hs.wellFormed.process raw
  raw := by
    rw [latest_cons, ← hs.raw]
    simp [Stage.process, hfilters, History.update]
  samples := by
    cases hposition : raw.position with
    | none => simpa [Stage.process, hfilters, History.update, hposition] using hs.samples
    | some v =>
        simpa [Stage.process, hfilters, History.update, hposition] using hs.samples.push v
  computed := by
    intro c hc
    have howns : (s.process raw).1.owns c = s.owns c := by
      simp [owns, variant?, Stage.process, hfilters]
    have hold := hs.computed c hc
    have hsome := hs.wellFormed.computed?_isSome raw c
    rw [howns, hs.wellFormed.get_lastComputed_process raw hc]
    cases hcarried : raw.has c.capability with
    | true =>
        rw [lastComputed_cons_of_has hcarried]
        cases howned : s.owns c with
        | true =>
            rw [howned, hcarried] at hsome
            obtain ⟨value, hvalue⟩ := Option.isSome_iff_exists.mp hsome
            simp [hvalue]
        | false =>
            have hnone : s.computed? raw c = none := by simpa [howned] using hsome
            rw [howned] at hold
            rw [hnone]
            exact hold
    | false =>
        have hnone : s.computed? raw c = none := by simpa [hcarried] using hsome
        rw [lastComputed_cons_of_not_has hcarried, hnone]
        exact hold
  unused := by
    intro hnone
    simp [Stage.process, hfilters] at hnone

theorem Recalls.process_of_none (hs : s.Recalls log) (hfilters : s.filters = none)
    (raw : Report) : (s.process raw).1.Recalls log := by
  have hprocess : (s.process raw).1 = { s with consumed := s.consumed + 1 } := by
    simp [Stage.process, hfilters]
  rw [hprocess]
  exact ⟨⟨hs.wellFormed.channels, hs.wellFormed.capacity⟩, hs.raw, hs.samples, hs.computed,
    hs.unused⟩

theorem Recalls.after (hs : s.Recalls log) (e : Event) :
    (s.after e).Recalls
      (if forgets (s, e) then [] else (filtered? (s, e)).toList ++ log) := by
  cases e with
  | configure settings =>
      rcases configure_cases s settings with hkept | ⟨filters, hcompile, hinstalled⟩
      · simpa [Stage.after, forgets, filtered?, hkept] using hs
      · have hchannels := FilterSet.channels_of_compile hcompile
        by_cases hsame : s.variant? = some filters.variant
        · simpa [Stage.after, forgets, filtered?, hinstalled, hsame] using
            hs.install_of_eq hchannels hsame
        · have hother : (some filters.variant != s.variant?) = true := by
            simpa using Ne.symm hsame
          simpa only [Stage.after, forgets, hinstalled, variant?_install, hother, if_true]
            using hs.install_of_ne hchannels hsame
  | process raw =>
      cases hfilters : s.filters with
      | none =>
          simpa [Stage.after, forgets, filtered?, hfilters] using
            hs.process_of_none hfilters raw
      | some filters =>
          simpa [Stage.after, forgets, filtered?, hfilters] using hs.process hfilters raw
  | setTablet tablet =>
      exact ⟨hs.wellFormed.after (.setTablet tablet), hs.raw, hs.samples, hs.computed,
        hs.unused⟩
  | resetHistory =>
      exact recalls_nil (hs.wellFormed.after .resetHistory) rfl (SampleRing.holds_clear _) rfl

/-- The memory and the log of a run. -/
theorem recalls_run (tablet : Tablet) (events : List Event) :
    ((ofTablet tablet).run events).Recalls ((ofTablet tablet).log events) := by
  induction events using List.reverseRecOn with
  | nil => exact recalls_ofTablet tablet
  | append_singleton events e ih =>
      rw [run_concat, log_concat]
      exact ih.after e

/-! ### Every reached stage -/

/-- The recorded position is of the log also where nothing is filtered. -/
theorem Recalls.lastComputed_of_position (hs : s.Recalls log) {c : Channel}
    (h : c.capability = .position) : LastComputed log c (s.history.lastComputed.get c) := by
  have hcomputed := hs.computed c (by rw [h]; decide)
  cases hfilters : s.filters with
  | none =>
      have howns : s.owns c = false := by simp [owns, variant?, hfilters]
      rw [howns] at hcomputed
      rw [hs.unused hfilters]
      exact hcomputed
  | some filters =>
      have howns : s.owns c = true := by
        simp [owns, variant?, hfilters, Variant.owns_of_position _ h]
      simpa [howns] using hcomputed

/-- **A stage remembers the log of its reports.**  After every sequence of events the memory is
a function of the reports filtered since it was last emptied; settings that fail, that change
nothing or that keep the variant are no reason to forget, and a report that lacks a measurement
disturbs none of what is remembered of it.  Consuming a report is the event of processing it. -/
theorem run_remembers_log (tablet : Tablet) (events : List Event) :
    ((ofTablet tablet).run events).Remembers ((ofTablet tablet).log events) ∧
      ∀ raw sink, (((ofTablet tablet).run events).consume raw sink).1 =
        (ofTablet tablet).run (events ++ [.process raw]) := by
  have hrecalls := recalls_run tablet events
  refine ⟨?_, ?_⟩
  · exact
      { raw := hrecalls.raw
        capacity := hrecalls.wellFormed.capacity
        samples := hrecalls.samples
        computedX := hrecalls.lastComputed_of_position (c := .x) rfl
        computedY := hrecalls.lastComputed_of_position (c := .y) rfl
        computedPressure := hrecalls.computed .pressure (by decide) }
  · intro raw sink
    rw [run_concat]
    rfl

end Stage

end PenFilter
