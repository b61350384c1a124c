import PenFilter.Proofs.Stage.Forgetting
import PenFilter.Proofs.Stage.Ready

/-! # The latest settings of a run

The filters of a stage change when settings are accepted, and at no other event.  So the filters
after a run are those that the stage had after the latest settings it accepted
(`Stage.exists_latest_accepted`), or after the latest settings that it compiled a set from
(`Stage.exists_latest_installed`); the ones in between found the set in use fit for them. -/

namespace PenFilter

namespace Stage

theorem run_append (s : Stage) (events more : List Event) :
    s.run (events ++ more) = (s.run events).run more := List.foldl_append

/-- An event of a kind, with events before it and behind it, none of which is of the kind when
it comes later. -/
structure LatestAt (kind : Stage × Event → Bool) (s : Stage) (before : List Event) (e : Event)
    (after : List Event) : Prop where
  holds : kind (s.run before, e) = true
  later : ((s.run (before ++ [e])).trace after).any kind = false

variable {kind : Stage × Event → Bool}

theorem LatestAt.concat {s : Stage} {before after : List Event} {e last : Event}
    (h : LatestAt kind s before e after)
    (hlast : kind (s.run (before ++ e :: after), last) = false) :
    LatestAt kind s before e (after ++ [last]) := by
  refine ⟨h.holds, ?_⟩
  have hstage : (s.run (before ++ [e])).run after = s.run (before ++ e :: after) := by
    rw [← run_append, List.append_assoc, List.singleton_append]
  rw [trace_concat, List.any_append, h.later, hstage]
  simp [hlast]

/-- When the events of a kind are the only ones to change the filters, these are as the latest one
left them. -/
theorem exists_latest (kind : Stage × Event → Bool)
    (hkind : ∀ t e, kind (t, e) = false → (t.after e).filters = t.filters)
    (s : Stage) (events : List Event) :
    (s.trace events).any kind = false ∧ (s.run events).filters = s.filters ∨
      ∃ before e after, events = before ++ e :: after ∧ LatestAt kind s before e after ∧
        (s.run events).filters = ((s.run before).after e).filters := by
  -- the last event either is of the kind, or leaves the latest one where it was
  induction events using List.reverseRecOn with
  | nil => exact .inl ⟨rfl, rfl⟩
  | append_singleton events last ih =>
      rw [run_concat]
      cases hlast : kind (s.run events, last) with
      | true =>
          right
          exact ⟨events, last, [], rfl, ⟨hlast, rfl⟩, rfl⟩
      | false =>
          rw [hkind _ _ hlast]
          rcases ih with ⟨hnone, hsame⟩ | ⟨before, e, after, rfl, hlatest, hfilters⟩
          · left
            rw [trace_concat, List.any_append, hnone]
            exact ⟨by simp [hlast], hsame⟩
          · right
            refine ⟨before, e, after ++ [last], ?_, hlatest.concat hlast, hfilters⟩
            rw [List.append_assoc, List.cons_append]

/-! ### Settings that were accepted -/

theorem exists_settings_of_accepts {s : Stage} {e : Event} (h : accepts (s, e) = true) :
    ∃ settings outcome, e = .configure settings ∧ (s.configure settings).2.2 = .ok outcome := by
  cases e with
  | configure settings =>
      rw [accepts] at h
      cases hresult : (s.configure settings).2.2 with
      | error error =>
          rw [hresult] at h
          cases h
      | ok outcome => exact ⟨settings, outcome, rfl, hresult⟩
  | process raw | setTablet tablet | resetHistory => cases h

theorem filters_after_of_not_accepts {s : Stage} {e : Event} (h : accepts (s, e) = false) :
    (s.after e).filters = s.filters := by
  cases e with
  | configure settings =>
      rw [accepts] at h
      cases hresult : (s.configure settings).2.2 with
      | error error =>
          show (s.configure settings).1.filters = s.filters
          rw [configure_of_error hresult]
      | ok outcome =>
          rw [hresult] at h
          cases h
  | process raw => exact filters_process s raw
  | setTablet tablet | resetHistory => rfl

/-- A stage has no filters before settings are accepted; from then on it has those that were in
use behind the latest settings accepted. -/
theorem exists_latest_accepted (tablet : Tablet) (events : List Event) :
    ((ofTablet tablet).trace events).any accepts = false ∧
        ((ofTablet tablet).run events).filters = none ∨
      ∃ before settings after outcome filters, events = before ++ .configure settings :: after ∧
        LatestAt accepts (ofTablet tablet) before (.configure settings) after ∧
        (((ofTablet tablet).run before).configure settings).2.2 = .ok outcome ∧
        (((ofTablet tablet).run before).configure settings).1.filters = some filters ∧
        ((ofTablet tablet).run events).filters = some filters := by
  rcases exists_latest accepts (fun _ _ => filters_after_of_not_accepts)
    (ofTablet tablet) events with hnone | ⟨before, e, after, rfl, hlatest, hfilters⟩
  · exact .inl hnone
  · right
    obtain ⟨settings, outcome, rfl, hok⟩ := exists_settings_of_accepts hlatest.holds
    have hsome := isSome_filters_configure ((ofTablet tablet).run before) settings
    rw [hok] at hsome
    obtain ⟨filters, hinstalled⟩ :=
      Option.isSome_iff_exists.mp (hsome.trans (Bool.or_true _))
    exact ⟨before, settings, after, outcome, filters, rfl, hlatest, hok, hinstalled,
      hfilters.trans hinstalled⟩

/-! ### Settings that were compiled -/

theorem configure_of_installed? {s : Stage} {e : Event} (h : (installed? (s, e)).isSome = true) :
    ∃ settings filters, e = .configure settings ∧ (s.after e).filters = some filters ∧
      (s.configure settings).2 = (filters.rejections, .ok ⟨true, filters.rejections⟩) := by
  obtain ⟨settings, hinstalled⟩ := Option.isSome_iff_exists.mp h
  cases e with
  | configure given =>
      rcases configure_outcomes s given with ⟨current, -, hkept⟩ | ⟨error, -, hfailed⟩ |
        ⟨filters, -, hnew⟩
      · rw [installed?, hkept] at hinstalled
        cases hinstalled
      · rw [installed?, hfailed] at hinstalled
        cases hinstalled
      · exact ⟨given, filters, rfl, by rw [Stage.after, hnew]; rfl, by rw [hnew]⟩
  | process raw | setTablet tablet | resetHistory => cases hinstalled

/-- The set in use was installed by the latest settings that were compiled, and its rejections were
reported then. -/
theorem exists_latest_installed {tablet : Tablet} {events : List Event} {filters : FilterSet}
    (h : ((ofTablet tablet).run events).filters = some filters) :
    ∃ before settings after, events = before ++ .configure settings :: after ∧
      LatestAt (fun met => (installed? met).isSome) (ofTablet tablet) before
        (.configure settings) after ∧
      (((ofTablet tablet).run before).configure settings).1.filters = some filters ∧
      (((ofTablet tablet).run before).configure settings).2 =
        (filters.rejections, .ok ⟨true, filters.rejections⟩) := by
  rcases exists_latest (fun met => (installed? met).isSome)
    (fun _ _ hnone => filters_after_of_installed?_eq_none (by simpa using hnone))
    (ofTablet tablet) events with ⟨-, hnone⟩ | ⟨before, e, after, rfl, hlatest, hfilters⟩
  · rw [h] at hnone
    cases hnone
  · obtain ⟨settings, others, rfl, hothers, hreported⟩ := configure_of_installed? hlatest.holds
    rw [h, hothers] at hfilters
    obtain rfl := Option.some.inj hfilters
    exact ⟨before, settings, after, rfl, hlatest, hothers, hreported⟩

end Stage

end PenFilter
