import Mathlib.Data.List.Nodup
import PenFilter.Stage
import PenFilter.Proofs.Filter.Fallback
import PenFilter.Proofs.History

/-! # One report

`Stage.computed?` is what a stage computes for one channel of a report, from the filter of that
channel alone and with nothing in the buffers.  The channels of a report run one after the
other, each on buffers that the former ones have used.  These have no influence on what the
channels make of the report (`Stage.outcome_foldl_runChannel`), and what is recorded for a channel
is its own computed value (`Stage.get_lastComputed_process`), as long as no channel has two
filters.  That is so in all stages that are reached (`Stage.WellFormed.run`). -/

namespace PenFilter

/-! ### Buffers -/

@[simp] theorem Program.call_fst [Arithmetic] (p : Program) (args : Array Double)
    (stack : Stack) : (p.call args stack).1 = (p.call args []).1 := by
  unfold Program.call
  split
  · rfl
  · cases Instr.run args p.code [] with
    | none => rfl
    | some left => cases left <;> rfl

theorem Variant.gather_buffer (v : Variant) (raw : Report) (h : History) (tablet : Tablet)
    (buffer : Array Double) : v.gather raw h tablet buffer = v.gather raw h tablet #[] := by
  simp [Variant.gather]

theorem Variant.nodup_channels (v : Variant) : v.channels.Nodup := by
  cases v with
  | basic | multiSample n => simp [Variant.channels]
  | extended => decide

theorem Variant.owns_of_position (v : Variant) {c : Channel} (h : c.capability = .position) :
    v.owns c = true := by
  cases c with
  | x | y => cases v <;> rfl
  | pressure | tiltX | tiltY => cases h

/-! ### Computed values -/

/-- The value of a filter for some variables, before it is rounded. -/
def ChannelFilter.value (f : ChannelFilter) (values : Array Double) : Double :=
  (f.program.call values []).1.re

/-- The recorded value of a channel; tilt is not recorded. -/
def ComputedSample.get (s : ComputedSample) : Channel → Double
  | .x => s.x
  | .y => s.y
  | .pressure => s.pressure
  | .tiltX | .tiltY => .zero

theorem ComputedSample.get_record_self {c : Channel} (hc : c.capability ≠ .tilt)
    (s : ComputedSample) (value : Double) : (s.record c value).get c = value := by
  cases c with
  | x | y | pressure => rfl
  | tiltX | tiltY => exact absurd rfl hc

theorem ComputedSample.get_record_of_ne {c d : Channel} (h : c ≠ d) (s : ComputedSample)
    (value : Double) : (s.record c value).get d = s.get d := by
  cases c <;> cases d <;> first | rfl | exact absurd rfl h

namespace Stage

/-- What a stage computes for a channel of a report, before it is rounded; nothing without a
filter for the channel or without the measurement. -/
def computed? (s : Stage) (raw : Report) (c : Channel) : Option Double :=
  s.filters.bind fun filters =>
    if raw.has c.capability then
      (filters.channels.find? (·.channel = c)).map
        (·.value (filters.variant.gather raw s.history s.tablet #[]))
    else none

variable {raw : Report} {values : Array Double} {c : Channel}

/-- What the channels have made of a report, apart from the stack. -/
def Progress.outcome (p : Progress) : Report × ComputedSample := (p.report, p.computed)

/-- One channel's share of a report, from the value of its filter on an empty stack. -/
def share (raw : Report) (values : Array Double) (o : Report × ComputedSample)
    (f : ChannelFilter) : Report × ComputedSample :=
  if raw.has f.channel.capability then
    (f.channel.write o.1 (f.value values), o.2.record f.channel (f.value values))
  else o

theorem outcome_runChannel (p : Progress) (f : ChannelFilter) :
    (runChannel raw values p f).outcome = share raw values p.outcome f := by
  unfold runChannel share
  split
  · simp [Progress.outcome, ChannelFilter.value]
  · rfl

/-- The stack that the channels hand on has no influence on what they make of a report. -/
theorem outcome_foldl_runChannel (fs : List ChannelFilter) (p : Progress) :
    (fs.foldl (runChannel raw values) p).outcome = fs.foldl (share raw values) p.outcome := by
  induction fs generalizing p with
  | nil => rfl
  | cons f fs ih => rw [List.foldl_cons, List.foldl_cons, ih, outcome_runChannel]

theorem get_runChannel_self {f : ChannelFilter} (hc : f.channel.capability ≠ .tilt)
    (p : Progress) : (runChannel raw values p f).computed.get f.channel =
      if raw.has f.channel.capability then f.value values else p.computed.get f.channel := by
  unfold runChannel
  split
  · simp [ComputedSample.get_record_self hc, ChannelFilter.value]
  · rfl

theorem get_runChannel_of_ne {f : ChannelFilter} (h : f.channel ≠ c) (p : Progress) :
    (runChannel raw values p f).computed.get c = p.computed.get c := by
  unfold runChannel
  split
  · simp [ComputedSample.get_record_of_ne h]
  · rfl

/-- What all channels together record for one of them. -/
theorem get_foldl_runChannel (hc : c.capability ≠ .tilt) {fs : List ChannelFilter}
    (hfs : (fs.map (·.channel)).Nodup) (p : Progress) :
    (fs.foldl (runChannel raw values) p).computed.get c =
      (if raw.has c.capability then (fs.find? (·.channel = c)).map (·.value values)
        else none).getD (p.computed.get c) := by
  induction fs generalizing p with
  | nil => simp
  | cons f fs ih =>
      rw [List.map_cons, List.nodup_cons] at hfs
      rw [List.foldl_cons, ih hfs.2]
      by_cases hf : f.channel = c
      · subst hf
        -- none of the later filters is for the same channel
        have hlater : fs.find? (·.channel = f.channel) = none := by
          rw [List.find?_eq_none]
          intro g hg hsame
          exact hfs.1 (List.mem_map.mpr ⟨g, hg, of_decide_eq_true hsame⟩)
        rw [get_runChannel_self hc]
        simp only [hlater, List.find?_cons, decide_true]
        split <;> rfl
      · rw [get_runChannel_of_ne hf]
        simp [hf]

/-! ### Stages that are reached -/

/-- A stage has one filter for each channel of its variant, in order, and room for as many
positions as the variant reads. -/
structure WellFormed (s : Stage) : Prop where
  channels : ∀ filters, s.filters = some filters →
    filters.channels.map (·.channel) = filters.variant.channels
  capacity : s.history.samples.capacity = (s.variant?.map Variant.sampleCapacity).getD 0

/-- The channels that formulas drive at the moment. -/
def owns (s : Stage) (c : Channel) : Bool := s.variant?.any (·.owns c)

theorem configure_cases (s : Stage) (settings : Settings) :
    (s.configure settings).1 = s ∨
      ∃ filters, (FilterSet.compile settings).2 = .ok filters ∧
        (s.configure settings).1 = s.install filters := by
  unfold configure
  split
  · exact .inl rfl
  · split
    · exact .inl rfl
    · rename_i filters hcompile
      exact .inr ⟨filters, by rw [hcompile], rfl⟩

@[simp] theorem variant?_install (s : Stage) (filters : FilterSet) :
    (s.install filters).variant? = some filters.variant := rfl

theorem history_install_of_eq {s : Stage} {filters : FilterSet}
    (h : s.variant? = some filters.variant) : (s.install filters).history = s.history :=
  if_pos h

theorem history_install_of_ne {s : Stage} {filters : FilterSet}
    (h : s.variant? ≠ some filters.variant) :
    (s.install filters).history = .ofCapacity filters.variant.sampleCapacity :=
  if_neg h

theorem wellFormed_ofTablet (tablet : Tablet) : (ofTablet tablet).WellFormed where
  channels := by simp [ofTablet]
  capacity := SampleRing.capacity_ofCapacity 0

theorem WellFormed.install {s : Stage} (hs : s.WellFormed) {filters : FilterSet}
    (h : filters.channels.map (·.channel) = filters.variant.channels) :
    (s.install filters).WellFormed where
  channels := by
    intro other hother
    obtain rfl := Option.some.inj hother
    exact h
  capacity := by
    rw [variant?_install]
    by_cases hsame : s.variant? = some filters.variant
    · rw [history_install_of_eq hsame, hs.capacity, hsame]
    · rw [history_install_of_ne hsame]
      exact SampleRing.capacity_ofCapacity _

theorem WellFormed.process {s : Stage} (hs : s.WellFormed) (raw : Report) :
    (s.process raw).1.WellFormed := by
  cases hfilters : s.filters with
  | none =>
      have hprocess : (s.process raw).1 = { s with consumed := s.consumed + 1 } := by
        simp [Stage.process, hfilters]
      rw [hprocess]
      exact ⟨hs.channels, hs.capacity⟩
  | some filters =>
      have hcapacity := hs.capacity
      constructor
      · simpa [Stage.process, hfilters] using hs.channels filters hfilters
      · cases hposition : raw.position with
        | none =>
            simpa [Stage.process, hfilters, variant?, History.update, hposition] using hcapacity
        | some v =>
            simpa [Stage.process, hfilters, variant?, History.update, hposition] using hcapacity

theorem WellFormed.after {s : Stage} (hs : s.WellFormed) (e : Event) :
    (s.after e).WellFormed := by
  cases e with
  | configure settings =>
      rcases configure_cases s settings with hkept | ⟨filters, hcompile, hinstalled⟩
      · rw [Stage.after, hkept]
        exact hs
      · rw [Stage.after, hinstalled]
        exact hs.install (FilterSet.channels_of_compile hcompile)
  | process raw => exact hs.process raw
  | setTablet tablet => exact ⟨hs.channels, hs.capacity⟩
  | resetHistory =>
      have hcapacity : s.resetHistory.history.samples.capacity = s.history.samples.capacity :=
        SampleRing.capacity_clear _
      exact ⟨hs.channels, hcapacity.trans hs.capacity⟩

/-- Every stage that is reached is well formed. -/
theorem WellFormed.run {s : Stage} (hs : s.WellFormed) (events : List Event) :
    (s.run events).WellFormed := by
  induction events generalizing s with
  | nil => exact hs
  | cons e events ih => exact ih (hs.after e)

theorem WellFormed.nodup_channels {s : Stage} (hs : s.WellFormed) {filters : FilterSet}
    (hfilters : s.filters = some filters) : (filters.channels.map (·.channel)).Nodup := by
  rw [hs.channels filters hfilters]
  exact filters.variant.nodup_channels

/-! ### What a report leaves behind -/

/-- A stage computes the channels that it drives and whose measurements the report carries. -/
theorem WellFormed.computed?_isSome {s : Stage} (hs : s.WellFormed) (raw : Report)
    (c : Channel) : (s.computed? raw c).isSome = (s.owns c && raw.has c.capability) := by
  cases hfilters : s.filters with
  | none => simp [computed?, owns, variant?, hfilters]
  | some filters =>
      have hfound : (filters.channels.find? (·.channel = c)).isSome =
          filters.variant.owns c := by
        rw [Variant.owns, ← hs.channels filters hfilters, Bool.eq_iff_iff]
        simp
      cases hcarried : raw.has c.capability with
      | false => simp [computed?, hfilters, hcarried]
      | true => simp [computed?, owns, variant?, hfilters, hcarried, hfound]

/-- A report leaves behind what the stage computes for it, and the former values where it
computes nothing. -/
theorem WellFormed.get_lastComputed_process {s : Stage} (hs : s.WellFormed) (raw : Report)
    {c : Channel} (hc : c.capability ≠ .tilt) :
    (s.process raw).1.history.lastComputed.get c =
      (s.computed? raw c).getD (s.history.lastComputed.get c) := by
  cases hfilters : s.filters with
  | none => simp [Stage.process, computed?, hfilters]
  | some filters =>
      simp only [Stage.process, computed?, hfilters, History.update,
        get_foldl_runChannel hc (hs.nodup_channels hfilters), Option.bind_some]
      rw [Variant.gather_buffer]

end Stage

end PenFilter
