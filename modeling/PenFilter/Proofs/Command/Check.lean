import PenFilter.Proofs.Command.Document
import PenFilter.Proofs.Stage.Fallbacks

/-! # A check says what a stage would do

A check compiles the settings in a file as a new stage does that is given them.  Its exit code says
what comes of them there, and its list has the entries of the stage's snapshot
(`Response.Checks`).  So it is one more view of the fallbacks (`fallbacks_agree`). -/

namespace PenFilter

/-- The lines for people about a channel of a snapshot. -/
def ChannelSnapshot.lines (c : ChannelSnapshot) : String :=
  match c.fallback with
  | none => "  ✓ " ++ c.channel.paddedLabel ++ " " ++ c.formula ++ "\n"
  | some reason =>
    "  ⚠ " ++ c.channel.paddedLabel ++ " " ++ c.formula ++ " (identity fallback)\n      " ++
      reason ++ "\n"

theorem ChannelFilter.text_eq_lines (f : ChannelFilter) : f.text = f.snapshot.lines := by
  unfold text ChannelSnapshot.lines snapshot
  cases f.rejected <;> rfl

namespace Snapshot

/-- The response lists the channels of a snapshot in their order, for either audience. -/
def ListedBy (s : Snapshot) (r : Response) (audience : Audience) : Prop :=
  ∃ variant fingerprint, s.variant = some variant ∧ s.fingerprint = some fingerprint ∧
    match audience with
    | .script => ∃ doc items, r.Document doc ∧
        doc.fields? ["success", "variant", "settings_hash", "channels"] =
          some [some (.bool (r.exit == 0)), some (.ofString variant),
            some (.ofString (fingerprintText fingerprint)), some (.array items)] ∧
        List.Forall₂ ChannelSnapshot.Listed s.channels items
    | .person => r.stdout =
        "Variant: " ++ variant ++ " (hash " ++ fingerprintText fingerprint ++ ")\n" ++
          String.join (s.channels.map ChannelSnapshot.lines)

end Snapshot

/-- The response to a check says what comes of the settings in a stage. -/
structure Response.Checks (r : Response) (audience : Audience) (stage : Stage)
    (settings : Settings) : Prop where
  refused : r.exit = 3 ↔ ∃ error, (stage.configure settings).2.2 = .error error
  replaced : r.exit = 4 ↔
    ∃ outcome, (stage.configure settings).2.2 = .ok outcome ∧ outcome.fallbacks ≠ []
  clean : r.exit = 0 ↔
    ∃ outcome, (stage.configure settings).2.2 = .ok outcome ∧ outcome.fallbacks = []
  listed : r.exit = 0 ∨ r.exit = 4 → (stage.configure settings).1.snapshot.ListedBy r audience

/-- The exit code of a check for what comes of the settings. -/
def checkCode : Except SettingsError Outcome → Nat
  | .error _ => 3
  | .ok outcome => if outcome.fallbacks = [] then 0 else 4

theorem Response.checks_of_exit {r : Response} {audience : Audience} {stage : Stage}
    {settings : Settings} (hexit : r.exit = checkCode (stage.configure settings).2.2)
    (hlisted : ∀ outcome, (stage.configure settings).2.2 = .ok outcome →
      (stage.configure settings).1.snapshot.ListedBy r audience) :
    r.Checks audience stage settings := by
  cases hresult : (stage.configure settings).2.2 with
  | error error =>
      rw [hresult] at hexit
      have hcode : r.exit = 3 := hexit
      constructor <;> simp [hcode, hresult]
  | ok outcome =>
      rw [hresult] at hexit
      have hcode : r.exit = if outcome.fallbacks = [] then 0 else 4 := hexit
      refine ⟨?_, ?_, ?_, fun _ => hlisted outcome hresult⟩
      · rw [hcode, hresult]
        split <;> simp
      · rw [hcode, hresult]
        split <;> simp [*]
      · rw [hcode, hresult]
        split <;> simp [*]

theorem FilterSet.exit_report (filters : FilterSet) (audience : Audience) :
    ((filters.report audience).response audience).exit =
      if filters.rejections = [] then 0 else 4 := by
  unfold report
  cases audience <;> cases filters.rejections <;> rfl

/-- A set of filters is listed as the snapshot of a stage in which it is installed. -/
theorem FilterSet.listedBy_report (filters : FilterSet) (stage : Stage) (audience : Audience) :
    (stage.install filters).snapshot.ListedBy ((filters.report audience).response audience)
      audience := by
  refine ⟨filters.variant.text, filters.fingerprint, rfl, rfl, ?_⟩
  cases audience with
  | script =>
      obtain ⟨hdoc, hexit, items, hfields, hitems⟩ := filters.document_listed
      refine ⟨_, items, hdoc, ?_, hitems⟩
      rw [hfields, hexit]
      cases filters.rejections <;> rfl
  | person =>
      have hlines : filters.channels.map ChannelFilter.text =
          (stage.install filters).snapshot.channels.map ChannelSnapshot.lines := by
        show _ = (filters.channels.map ChannelFilter.snapshot).map ChannelSnapshot.lines
        rw [List.map_map]
        exact List.map_congr_left fun f _ => f.text_eq_lines
      show _ = _ ++ String.join _
      rw [← hlines]
      unfold report
      cases filters.rejections <;> rfl

theorem checks_ofTablet [Libraries] {files : Files} {path : String} {settings : Settings}
    (hread : Settings.ofFile files path = .ok settings) (tablet : Tablet) (audience : Audience)
    (stdin : String) :
    (Request.respond ⟨.check path, audience⟩ files stdin).Checks audience (.ofTablet tablet)
      settings := by
  have hrespond : Request.respond ⟨.check path, audience⟩ files stdin =
      (check files path audience).response audience := rfl
  rw [hrespond, check, hread]
  dsimp only
  rcases Stage.configure_outcomes (.ofTablet tablet) settings with ⟨current, hcurrent, -⟩ |
    ⟨error, hcompile, hfailed⟩ | ⟨filters, hcompile, hnew⟩
  · cases hcurrent
  · rw [hcompile]
    apply Response.checks_of_exit
    · rw [hfailed]
      cases audience <;> rfl
    · intro outcome hok
      rw [hfailed] at hok
      cases hok
  · rw [hcompile]
    apply Response.checks_of_exit
    · rw [hnew]
      exact filters.exit_report audience
    · intro outcome hok
      rw [hnew]
      exact filters.listedBy_report _ audience

/-- **All views of the fallbacks agree.**  Whenever a stage is ready, its set of filters, its
snapshot with the count, and what was reported when the set was installed show the same channels,
formulas and errors in the same order; so does what comes of settings that are accepted, compiled or
not.  In a run just the fallbacks of the sets that are installed are reported.  In every snapshot a
channel runs its formula or, if that was replaced, its identity.  A check of a file exits and lists
the channels as a new stage takes the settings in it. -/
theorem fallbacks_agree [Libraries] (tablet : Tablet) :
    (∀ events, ((Stage.ofTablet tablet).run events).isReady →
      ∃ filters, Stage.Vouched tablet events filters) ∧
    (∀ before settings outcome,
      (((Stage.ofTablet tablet).run before).configure settings).2.2 = .ok outcome →
      ∃ filters, Stage.Vouched tablet (before ++ [.configure settings]) filters ∧
        outcome.fallbacks = filters.rejections ∧
        (((Stage.ofTablet tablet).run before).configure settings).2.1 =
          if outcome.recompiled then outcome.fallbacks else []) ∧
    (∀ events, ((Stage.ofTablet tablet).course Stage.configure events).flatMap (·.2.reported) =
      ((Stage.ofTablet tablet).course Stage.configure events).flatMap (·.2.recompiled)) ∧
    (∀ events, ∀ c ∈ ((Stage.ofTablet tablet).run events).snapshot.channels,
      c.active = if c.fallback.isSome then c.channel.identity else c.formula) ∧
    ∀ files path settings, Settings.ofFile files path = .ok settings → ∀ audience stdin,
      (Request.respond ⟨.check path, audience⟩ files stdin).Checks audience (.ofTablet tablet)
        settings := by
  refine ⟨fun events hready => ?_, fun before settings outcome hok => ?_,
    Stage.reported_course _, fun _ _ => Stage.active_of_mem_snapshot,
    fun _ _ _ hread => checks_ofTablet hread tablet⟩
  · obtain ⟨filters, hfilters⟩ := Option.isSome_iff_exists.mp hready
    exact ⟨filters, Stage.vouched_run hfilters⟩
  · obtain ⟨filters, hfilters, hfallbacks, hreported⟩ := Stage.fallbacks_configure hok
    refine ⟨filters, Stage.vouched_run ?_, hfallbacks, hfallbacks ▸ hreported⟩
    rw [Stage.run_concat]
    exact hfilters

/-- The theorem at a formula that breaks off, in settings that are given twice and in a file. -/
theorem fallbacks_agree_faulty_formula :
    let tablet : Tablet := ⟨.zero, .zero, 0⟩
    let faulty : Settings := { x := "(" }
    let files : Files := fun _ => .ok "\x7b\"x\": \"(\"\x7d"
    let fallbacks : List Rejection := [⟨.x, "(", .parse (.unexpectedEnd .operand)⟩]
    let before : List Stage.Event := [.configure faulty, .resetHistory]
    ((Stage.ofTablet tablet).run before).isReady ∧
      (∃ filters, Stage.Vouched tablet before filters) ∧
      (((Stage.ofTablet tablet).run before).configure faulty).2.2 = .ok ⟨false, fallbacks⟩ ∧
      (∃ filters, Stage.Vouched tablet (before ++ [.configure faulty]) filters ∧
        fallbacks = filters.rejections) ∧
      Settings.ofFile files "pen.json" = .ok faulty ∧
      (Request.respond ⟨.check "pen.json", .person⟩ files "").Checks .person (.ofTablet tablet)
        faulty := by
  intro tablet faulty files fallbacks before
  have hready : ((Stage.ofTablet tablet).run before).isReady := by decide +kernel
  have hkept : (((Stage.ofTablet tablet).run before).configure faulty).2.2 =
      .ok ⟨false, fallbacks⟩ := by decide +kernel
  have hread : Settings.ofFile files "pen.json" = .ok faulty := by decide +kernel
  obtain ⟨hruns, hconfigured, -, -, hchecks⟩ := fallbacks_agree tablet
  obtain ⟨filters, hvouched, hfallbacks, -⟩ := hconfigured before faulty _ hkept
  exact ⟨hready, hruns before hready, hkept, ⟨filters, hvouched, hfallbacks⟩, hread,
    hchecks files "pen.json" faulty hread .person ""⟩

end PenFilter
