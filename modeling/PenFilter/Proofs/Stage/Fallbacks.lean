import PenFilter.Proofs.Stage.Latest
import PenFilter.Stage.Snapshot

/-! # All views of the fallbacks agree

The formulas that a stage replaces by identities are seen in several places: in the set of filters,
in what comes of settings, in a snapshot, and in what is reported while settings are compiled.  All
of them show the rejections of the set in use (`Stage.Shows`), and these were reported when the set
was installed (`Stage.Vouched`).  Nothing else is reported in a run
(`Stage.reported_course`). -/

namespace PenFilter

/-! ### Snapshots -/

/-- A rejection as it is shown: the channel, its formula and the text of the error. -/
def Rejection.shown (r : Rejection) : Channel × String × String :=
  (r.channel, r.formula, r.error.message)

/-- The rejection that an entry of a snapshot shows. -/
def ChannelSnapshot.shown? (c : ChannelSnapshot) : Option (Channel × String × String) :=
  c.fallback.map (c.channel, c.formula, ·)

namespace ChannelFilter

theorem shown?_snapshot (f : ChannelFilter) :
    f.snapshot.shown? = f.rejection?.map Rejection.shown := by
  unfold ChannelSnapshot.shown? rejection? snapshot
  cases f.rejected <;> rfl

theorem Serves.source_eq {schema : Schema} {s : Settings} {f : ChannelFilter}
    (h : f.Serves schema s) : f.program.source = f.active := by
  obtain ⟨e, -, hprogram⟩ := Program.ofFormula_eq_ok_iff.mp h.ofFormula_active
  rw [hprogram]

end ChannelFilter

namespace Stage

/-- A stage shows the rejections of its set of filters, each in its place. -/
structure Shows (s : Stage) (filters : FilterSet) : Prop where
  replaced : (filters.channels.filter (·.rejected.isSome)).map (·.rejection?) =
    filters.rejections.map some
  snapshot : s.snapshot.channels.filterMap ChannelSnapshot.shown? =
    filters.rejections.map Rejection.shown
  count : s.snapshot.fallbackCount = filters.rejections.length

theorem channels_snapshot {s : Stage} {filters : FilterSet} (h : s.filters = some filters) :
    s.snapshot.channels = filters.channels.map ChannelFilter.snapshot := by
  unfold snapshot
  rw [h]
  rfl

theorem shows_of_filters {s : Stage} {filters : FilterSet} (h : s.filters = some filters) :
    s.Shows filters := by
  have hshown : s.snapshot.channels.filterMap ChannelSnapshot.shown? =
      filters.rejections.map Rejection.shown := by
    unfold FilterSet.rejections
    rw [channels_snapshot h, List.filterMap_map, List.map_filterMap]
    exact List.filterMap_congr fun f _ => f.shown?_snapshot
  refine ⟨?_, hshown, ?_⟩
  · unfold FilterSet.rejections
    rw [List.map_filterMap_some_eq_filter_map_isSome, List.filter_map]
    congr 2
    funext f
    exact Option.isSome_map.symm
  · rw [← List.length_map, ← hshown, List.length_filterMap_eq_countP]
    unfold Snapshot.fallbackCount
    congr 1
    funext c
    exact Option.isSome_map.symm

theorem active_of_mem_snapshot {tablet : Tablet} {events : List Event} {c : ChannelSnapshot}
    (hc : c ∈ ((ofTablet tablet).run events).snapshot.channels) :
    c.active = if c.fallback.isSome then c.channel.identity else c.formula := by
  cases hfilters : ((ofTablet tablet).run events).filters with
  | none =>
      unfold snapshot at hc
      rw [hfilters] at hc
      cases hc
  | some filters =>
      obtain ⟨settings, -, hcompile⟩ := filters_run_eq_some_iff.mp hfilters
      obtain ⟨-, -, hserves, -⟩ := FilterSet.serves_of_compile hcompile
      rw [channels_snapshot hfilters] at hc
      obtain ⟨f, hf, rfl⟩ := List.mem_map.mp hc
      show f.program.source = _
      rw [(hserves f hf).source_eq]
      unfold ChannelFilter.active ChannelFilter.snapshot
      rw [Option.isSome_map]

/-! ### The set in use -/

/-- The stage shows the rejections of the set in use, and they were reported, in the same order,
by the latest settings that were compiled in the run. -/
structure Vouched (tablet : Tablet) (events : List Event) (filters : FilterSet) : Prop where
  inUse : ((ofTablet tablet).run events).filters = some filters
  shows : ((ofTablet tablet).run events).Shows filters
  reported : ∃ before settings after, events = before ++ .configure settings :: after ∧
    LatestAt (fun met => (installed? met).isSome) (ofTablet tablet) before
      (.configure settings) after ∧
    (((ofTablet tablet).run before).configure settings).1.filters = some filters ∧
    (((ofTablet tablet).run before).configure settings).2 =
      (filters.rejections, .ok ⟨true, filters.rejections⟩)

theorem vouched_run {tablet : Tablet} {events : List Event} {filters : FilterSet}
    (h : ((ofTablet tablet).run events).filters = some filters) :
    Vouched tablet events filters :=
  ⟨h, shows_of_filters h, exists_latest_installed h⟩

theorem fallbacks_configure {s : Stage} {settings : Settings} {outcome : Outcome}
    (h : (s.configure settings).2.2 = .ok outcome) :
    ∃ filters, (s.configure settings).1.filters = some filters ∧
      outcome.fallbacks = filters.rejections ∧
      (s.configure settings).2.1 = if outcome.recompiled then filters.rejections else [] := by
  rcases configure_outcomes s settings with ⟨current, hcurrent, hkept⟩ | ⟨error, -, hfailed⟩ |
    ⟨filters, -, hnew⟩
  · rw [hkept] at h ⊢
    obtain rfl := Except.ok.inj h
    exact ⟨current, hcurrent, rfl, rfl⟩
  · rw [hfailed] at h
    cases h
  · rw [hnew] at h ⊢
    obtain rfl := Except.ok.inj h
    exact ⟨filters, rfl, rfl, rfl⟩

/-! ### Reports of rejections -/

/-- The rejections that are reported before an answer. -/
def Answer.reported : Answer → List Rejection
  | configured reported _ => reported
  | passed _ | silent => []

/-- The fallbacks of an answer that says that settings were compiled. -/
def Answer.recompiled : Answer → List Rejection
  | configured _ (.ok outcome) => if outcome.recompiled then outcome.fallbacks else []
  | configured _ (.error _) | passed _ | silent => []

theorem reported_step (s : Stage) (e : Event) :
    (s.step configure e).2.reported = (s.step configure e).2.recompiled := by
  cases e with
  | configure settings =>
      rcases configure_outcomes s settings with ⟨current, -, hkept⟩ | ⟨error, -, hfailed⟩ |
        ⟨filters, -, hnew⟩
      · rw [step, hkept]
        rfl
      · rw [step, hfailed]
        rfl
      · rw [step, hnew]
        rfl
  | process raw | setTablet tablet | resetHistory => rfl

theorem reported_course (s : Stage) (events : List Event) :
    (s.course configure events).flatMap (·.2.reported) =
      (s.course configure events).flatMap (·.2.recompiled) := by
  induction events generalizing s with
  | nil => rfl
  | cons e events ih => rw [course, List.flatMap_cons, List.flatMap_cons, reported_step, ih]

end Stage

end PenFilter
