import PenFilter.Proofs.Settings.Agreement
import PenFilter.Proofs.Stage.Process

/-! # Settings that are given again

A stage keeps its set of filters when new settings have the fingerprint of the set.
`Stage.recompile` compiles all settings instead.  `Stage.course` is a run with either of them, with
the stage and its answer after each event.  As long as fingerprints tell apart the settings of a
run, the two courses have the same stages, and their answers differ only where a set was kept
(`Stage.InUse.course_spares`): the settings of the set in use and the new ones agree on what
matters, so that compiling would make the same set again (`Stage.InUse.compile_eq`). -/

namespace PenFilter

theorem FilterSet.fingerprint_of_compile {s : Settings} {set : FilterSet}
    (h : (compile s).2 = .ok set) : set.fingerprint = s.fingerprint := by
  have hvalid := validate_of_compile h
  simp only [compile, hvalid] at h
  cases hchannels :
      (ChannelFilter.compileAll s.filterVariant.schema s s.filterVariant.channels).2 with
  | error error =>
      rw [hchannels] at h
      cases h
  | ok channels =>
      rw [hchannels] at h
      cases h
      rfl

namespace Stage

/-! ### Courses -/

/-- What a stage answers to an event. -/
inductive Answer where
  /-- to settings: the rejections reported on the way, and what came of the settings -/
  | configured (reported : List Rejection) (result : Except SettingsError Outcome)
  /-- to a report: the report that is passed on -/
  | passed (report : Report)
  /-- to a tablet and to a reset -/
  | silent

/-- A way of giving settings to a stage. -/
abbrev Configuring := Stage → Settings → Stage × List Rejection × Except SettingsError Outcome

/-- The stage after some settings that are compiled in any case. -/
def recompile : Configuring := fun s settings =>
  match FilterSet.compile settings with
  | (rejections, .error error) => (s, rejections, .error error)
  | (rejections, .ok filters) =>
    (s.install filters, rejections, .ok ⟨true, filters.rejections⟩)

/-- The stage after an event, and its answer. -/
def step (give : Configuring) (s : Stage) : Event → Stage × Answer
  | .configure settings =>
    let (t, reported, result) := give s settings
    (t, .configured reported result)
  | .process raw =>
    let (t, report) := s.process raw
    (t, .passed report)
  | .setTablet tablet => (s.setTablet tablet, .silent)
  | .resetHistory => (s.resetHistory, .silent)

/-- The stages after the events of a run, each with its answer. -/
def course (give : Configuring) (s : Stage) : List Event → List (Stage × Answer)
  | [] => []
  | e :: events => s.step give e :: (s.step give e).1.course give events

theorem fst_step_configure (s : Stage) (e : Event) : (s.step configure e).1 = s.after e := by
  cases e <;> rfl

/-- The settings that an event gives. -/
def Event.settings? : Event → Option Settings
  | configure settings => some settings
  | process _ | setTablet _ | resetHistory => none

/-! ### One configuration -/

/-- What comes of settings: the set in use is kept, or there is no set, or a new one is
installed. -/
theorem configure_eq (s : Stage) (settings : Settings) :
    (∃ current, s.filters = some current ∧ current.fingerprint = settings.fingerprint ∧
      s.configure settings = (s, [], .ok ⟨false, current.rejections⟩)) ∨
    s.configure settings = s.recompile settings := by
  cases hfilter : s.filters.filter (·.fingerprint == settings.fingerprint) with
  | none =>
      right
      rw [configure, hfilter]
      rfl
  | some current =>
      left
      obtain ⟨hcurrent, hprint⟩ := Option.filter_eq_some_iff.mp hfilter
      refine ⟨current, hcurrent, by simpa using hprint, ?_⟩
      rw [configure, hfilter]

theorem recompile_of_error {s : Stage} {settings : Settings} {reported : List Rejection}
    {error : SettingsError} (h : FilterSet.compile settings = (reported, .error error)) :
    s.recompile settings = (s, reported, .error error) := by
  rw [recompile, h]

theorem recompile_of_ok {s : Stage} {settings : Settings} {reported : List Rejection}
    {filters : FilterSet} (h : FilterSet.compile settings = (reported, .ok filters)) :
    s.recompile settings =
      (s.install filters, reported, .ok ⟨true, filters.rejections⟩) := by
  rw [recompile, h]

/-- All that settings can lead to: the set in use is kept and nothing is reported, or nothing
changes, or a new set is installed, whose rejections are reported in their order. -/
theorem configure_outcomes (s : Stage) (settings : Settings) :
    (∃ current, s.filters = some current ∧
      s.configure settings = (s, [], .ok ⟨false, current.rejections⟩)) ∨
    (∃ error, (FilterSet.compile settings).2 = .error error ∧
      s.configure settings = (s, [], .error error)) ∨
    ∃ filters, (FilterSet.compile settings).2 = .ok filters ∧
      s.configure settings =
        (s.install filters, filters.rejections, .ok ⟨true, filters.rejections⟩) := by
  rcases configure_eq s settings with ⟨current, hcurrent, -, hkept⟩ | hcompiled
  · exact .inl ⟨current, hcurrent, hkept⟩
  · right
    cases hvalid : settings.validate with
    | error error =>
        have hresult := FilterSet.compile_of_validate_error hvalid
        left
        exact ⟨error, by rw [hresult], hcompiled.trans (recompile_of_error hresult)⟩
    | ok valid =>
        obtain ⟨filters, hresult, -⟩ := FilterSet.compile_of_validate hvalid
        right
        exact ⟨filters, by rw [hresult], hcompiled.trans (recompile_of_ok hresult)⟩

theorem configure_of_error {s : Stage} {settings : Settings} {error : SettingsError}
    (h : (s.configure settings).2.2 = .error error) : (s.configure settings).1 = s := by
  rcases configure_outcomes s settings with ⟨current, -, hkept⟩ | ⟨cause, -, hfailed⟩ |
    ⟨filters, -, hnew⟩
  · rw [hkept]
  · rw [hfailed]
  · rw [hnew] at h
    cases h

theorem configure_of_kept {s : Stage} {settings : Settings} {outcome : Outcome}
    (h : (s.configure settings).2.2 = .ok outcome) (hkept : outcome.recompiled = false) :
    (s.configure settings).1 = s ∧ (s.configure settings).2.1 = [] := by
  rcases configure_outcomes s settings with ⟨current, -, hsame⟩ | ⟨error, -, hfailed⟩ |
    ⟨filters, -, hnew⟩
  · rw [hsame]
    exact ⟨rfl, rfl⟩
  · rw [hfailed] at h
    cases h
  · rw [hnew] at h
    cases h
    cases hkept

theorem install_self {s : Stage} {current : FilterSet} (h : s.filters = some current) :
    s.install current = s := by
  have hvariant : s.variant? = some current.variant := by rw [variant?, h, Option.map_some]
  rw [install, if_pos hvariant, ← h]

/-! ### Fingerprints that tell settings apart -/

/-- No two of the settings have one fingerprint for different bytes. -/
def ToldApart (known : List Settings) : Prop :=
  ∀ a ∈ known, ∀ b ∈ known, a.fingerprint = b.fingerprint → a.hashInput = b.hashInput

/-- The set in use was compiled from some of the settings. -/
def InUse (s : Stage) (known : List Settings) : Prop :=
  ∀ current, s.filters = some current →
    ∃ settings ∈ known, (FilterSet.compile settings).2 = .ok current

variable {s : Stage} {known : List Settings} {settings : Settings}

theorem inUse_ofTablet (tablet : Tablet) (known : List Settings) :
    (ofTablet tablet).InUse known := nofun

@[simp] theorem filters_process (s : Stage) (raw : Report) :
    (s.process raw).1.filters = s.filters := by
  cases h : s.filters <;> simp [Stage.process, h]

theorem InUse.after (hs : s.InUse known) {e : Event}
    (hmem : ∀ settings, e.settings? = some settings → settings ∈ known) :
    (s.after e).InUse known := by
  cases e with
  | configure settings =>
      rcases configure_cases s settings with hkept | ⟨filters, hcompile, hinstalled⟩
      · rw [Stage.after, hkept]
        exact hs
      · rw [Stage.after, hinstalled]
        rintro current ⟨⟩
        exact ⟨settings, hmem settings rfl, hcompile⟩
  | process raw =>
      intro current hcurrent
      exact hs current (filters_process s raw ▸ hcurrent)
  | setTablet tablet => exact hs
  | resetHistory => exact hs

/-- The set in use at any moment of a run was compiled from settings of the run. -/
theorem InUse.run (hs : s.InUse known) {events : List Event}
    (hmem : ∀ e ∈ events, ∀ settings, e.settings? = some settings → settings ∈ known) :
    (s.run events).InUse known := by
  induction events generalizing s with
  | nil => exact hs
  | cons e events ih =>
      rw [List.forall_mem_cons] at hmem
      exact ih (hs.after hmem.1) hmem.2

/-- Settings with the fingerprint of the set in use would make the same set again, with the
same reports. -/
theorem InUse.compile_eq (hs : s.InUse known) (happart : ToldApart known)
    (hmem : settings ∈ known) {current : FilterSet} (hcurrent : s.filters = some current)
    (hprint : current.fingerprint = settings.fingerprint) :
    FilterSet.compile settings = (current.rejections, .ok current) := by
  obtain ⟨former, hformer, hcompile⟩ := hs current hcurrent
  have hsame : former.fingerprint = settings.fingerprint := by
    rw [← hprint, FilterSet.fingerprint_of_compile hcompile]
  have hagree := Settings.hashInput_eq_iff.mp (happart former hformer settings hmem hsame)
  obtain ⟨-, -, -, hreported⟩ := FilterSet.serves_of_compile hcompile
  rw [← hagree.compile_eq]
  exact Prod.ext hreported hcompile

/-- An answer beside the one of a stage that compiles all settings: the same, or else the set in
use was kept, and its rejections are not reported again. -/
inductive Answer.Spares : Answer → Answer → Prop
  | same (a : Answer) : Spares a a
  | kept (rejections : List Rejection) :
    Spares (.configured [] (.ok ⟨false, rejections⟩))
      (.configured rejections (.ok ⟨true, rejections⟩))

theorem InUse.step_spares (hs : s.InUse known) (happart : ToldApart known) {e : Event}
    (hmem : ∀ settings, e.settings? = some settings → settings ∈ known) :
    (s.step configure e).1 = (s.step recompile e).1 ∧
      (s.step configure e).2.Spares (s.step recompile e).2 := by
  cases e with
  | configure settings =>
      rcases configure_eq s settings with ⟨current, hcurrent, hprint, hkept⟩ | hcompiled
      · have hagain : s.recompile settings =
            (s, current.rejections, .ok ⟨true, current.rejections⟩) := by
          rw [recompile_of_ok (hs.compile_eq happart (hmem settings rfl) hcurrent hprint),
            install_self hcurrent]
        rw [Stage.step, Stage.step, hkept, hagain]
        exact ⟨rfl, .kept _⟩
      · rw [Stage.step, Stage.step, hcompiled]
        exact ⟨rfl, .same _⟩
  | process raw => exact ⟨rfl, .same _⟩
  | setTablet tablet => exact ⟨rfl, .same _⟩
  | resetHistory => exact ⟨rfl, .same _⟩

theorem InUse.course_spares (hs : s.InUse known) (happart : ToldApart known) {events : List Event}
    (hmem : ∀ e ∈ events, ∀ settings, e.settings? = some settings → settings ∈ known) :
    List.Forall₂ (fun p q => p.1 = q.1 ∧ p.2.Spares q.2)
      (s.course configure events) (s.course recompile events) := by
  induction events generalizing s with
  | nil => exact .nil
  | cons e events ih =>
      rw [List.forall_mem_cons] at hmem
      obtain ⟨hstage, hanswer⟩ := hs.step_spares happart hmem.1
      refine .cons ⟨hstage, hanswer⟩ ?_
      rw [← hstage, fst_step_configure]
      exact ih (hs.after hmem.1) hmem.2

theorem InUse.filters_configure (hs : s.InUse known) (happart : ToldApart known)
    (hmem : settings ∈ known) {outcome : Outcome}
    (h : (s.configure settings).2.2 = .ok outcome) :
    ∃ filters, (FilterSet.compile settings).2 = .ok filters ∧
      (s.configure settings).1.filters = some filters := by
  rcases configure_eq s settings with ⟨current, hcurrent, hprint, hkept⟩ | hcompiled
  · refine ⟨current, ?_, by rw [hkept, hcurrent]⟩
    rw [hs.compile_eq happart hmem hcurrent hprint]
  · rw [hcompiled] at h ⊢
    match hresult : FilterSet.compile settings with
    | (reported, .error error) =>
        rw [recompile_of_error hresult] at h
        cases h
    | (reported, .ok filters) =>
        rw [recompile_of_ok hresult]
        exact ⟨filters, rfl, rfl⟩

/-- **Keeping the set in use cannot be told from compiling it again.**  While fingerprints tell
the settings of a run apart, each event leads to the same stage, with its filters, its memory and
what it shows of them, and to the same answer; only, a set that is kept is not called recompiled,
and its rejections are reported once.  Settings that are accepted have their own set in use
afterwards.  In any state, settings that fail change nothing, and neither does a set that is
kept. -/
theorem configure_shortcut_transparent :
    (∀ (tablet : Tablet) (events : List Event), ToldApart (events.filterMap Event.settings?) →
      List.Forall₂ (fun p q => p.1 = q.1 ∧ p.2.Spares q.2)
        ((ofTablet tablet).course configure events) ((ofTablet tablet).course recompile events) ∧
      ∀ before settings after outcome, events = before ++ .configure settings :: after →
        (((ofTablet tablet).run before).configure settings).2.2 = .ok outcome →
        ∃ filters, (FilterSet.compile settings).2 = .ok filters ∧
          (((ofTablet tablet).run before).configure settings).1.filters = some filters) ∧
    ∀ (s : Stage) (settings : Settings),
      (∀ error, (s.configure settings).2.2 = .error error → (s.configure settings).1 = s) ∧
      ∀ outcome, (s.configure settings).2.2 = .ok outcome → outcome.recompiled = false →
        (s.configure settings).1 = s ∧ (s.configure settings).2.1 = [] := by
  refine ⟨?_, fun s settings => ⟨fun _ => configure_of_error, fun _ => configure_of_kept⟩⟩
  intro tablet events happart
  have hmem : ∀ e ∈ events, ∀ settings, e.settings? = some settings →
      settings ∈ events.filterMap Event.settings? :=
    fun e he settings hsettings => List.mem_filterMap.mpr ⟨e, he, hsettings⟩
  have hstart := inUse_ofTablet tablet (events.filterMap Event.settings?)
  refine ⟨hstart.course_spares happart hmem, ?_⟩
  rintro before settings after outcome rfl hok
  have hbefore := hstart.run fun e he => hmem e (List.mem_append_left _ he)
  exact hbefore.filters_configure happart (hmem (.configure settings) (by simp) settings rfl) hok

/-- The theorem at a run that edits what the variant does not use, and then gives settings that
are refused and settings that put another set in use. -/
theorem configure_shortcut_unused_fields :
    let edited : Settings := { x := "x*2", pressure := "p*2", samples := 9 }
    let refused : Settings := { variant := .multiSample, samples := 0 }
    let before : List Event := [.configure { x := "x*2" }, .process { position := some .zero }]
    let events := before ++ .configure edited :: [.configure refused, .configure { y := "(" }]
    let stage := (ofTablet ⟨.zero, .zero, 0⟩).run before
    ToldApart (events.filterMap Event.settings?) ∧
      List.Forall₂ (fun p q => p.1 = q.1 ∧ p.2.Spares q.2)
        ((ofTablet ⟨.zero, .zero, 0⟩).course configure events)
        ((ofTablet ⟨.zero, .zero, 0⟩).course recompile events) ∧
      (∃ filters, (FilterSet.compile edited).2 = .ok filters ∧
        (stage.configure edited).1.filters = some filters) ∧
      (stage.configure edited).2.2 = .ok ⟨false, []⟩ ∧ (stage.configure edited).1 = stage ∧
      (stage.configure refused).2.2 = .error (.invalidSampleCount 0) ∧
      (stage.configure refused).1 = stage := by
  have happart : ToldApart [{ x := "x*2" }, { x := "x*2", pressure := "p*2", samples := 9 },
      { variant := .multiSample, samples := 0 }, { y := "(" }] := by
    unfold ToldApart
    decide +kernel
  refine ⟨happart, ?_, ?_, ?_, ?_, ?_, ?_⟩
  · refine (configure_shortcut_transparent.1 _ _ ?_).1
    exact happart
  · refine (configure_shortcut_transparent.1 _ _ ?_).2 _ _
      [.configure { variant := .multiSample, samples := 0 }, .configure { y := "(" }]
      ⟨false, []⟩ rfl rfl
    exact happart
  · rfl
  · exact ((configure_shortcut_transparent.2 _ _).2 ⟨false, []⟩ rfl rfl).1
  · rfl
  · exact (configure_shortcut_transparent.2 _ _).1 (.invalidSampleCount 0) rfl

/-! ### Settings that agree -/

theorem configure_eq_of_agrees {a b : Settings} (h : a.Agrees b) (s : Stage) :
    s.configure a = s.configure b := by
  rw [configure, configure, h.fingerprint_eq, h.compile_eq]

end Stage

/-- **Exactly what matters in settings is hashed.**  Two settings have the same hashed bytes if
and only if they agree on the variant, on the number of samples where it matters and on the
formula of each channel of the variant.  Settings that agree cannot be told apart: they are
validated, hashed and compiled alike, with the same reports on the way, and a stage in any state
that is given one or the other goes the same way ever after. -/
theorem Settings.hashInput_eq_iff_agrees (a b : Settings) :
    (a.hashInput = b.hashInput ↔ a.Agrees b) ∧
    (a.Agrees b → a.validate = b.validate ∧ a.fingerprint = b.fingerprint ∧
      FilterSet.compile a = FilterSet.compile b ∧
      ∀ (s : Stage) (events : List Stage.Event),
        s.course Stage.configure (.configure a :: events) =
          s.course Stage.configure (.configure b :: events)) := by
  refine ⟨hashInput_eq_iff, fun h => ⟨h.validate_eq, h.fingerprint_eq, h.compile_eq, ?_⟩⟩
  intro s events
  rw [Stage.course, Stage.course, Stage.step, Stage.step, Stage.configure_eq_of_agrees h]

/-- The theorem at settings that differ in what their variant does not use. -/
theorem Settings.hashInput_unused_fields :
    let a : Settings := { x := "x*2", tiltY := "(" }
    let b : Settings := { x := "x*2", pressure := "p*2", samples := 9 }
    a ≠ b ∧ a.Agrees b ∧ a.hashInput = b.hashInput ∧ a.fingerprint = b.fingerprint ∧
      (∀ (s : Stage) (events : List Stage.Event),
        s.course Stage.configure (.configure a :: events) =
          s.course Stage.configure (.configure b :: events)) := by
  intro a b
  have hagree : a.Agrees b := ⟨rfl, nofun, by decide⟩
  obtain ⟨hiff, hall⟩ := hashInput_eq_iff_agrees a b
  obtain ⟨-, hprint, -, hcourse⟩ := hall hagree
  exact ⟨by decide, hagree, hiff.mpr hagree, hprint, hcourse⟩

end PenFilter
