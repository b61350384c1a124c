import PenFilter.Proofs.Stage.Latest
import PenFilter.Proofs.Stage.Report
import PenFilter.Stage.Shared

/-! # A shared stage is the stage in lock order

Handles step in any order, and a report may wait between the two steps in which it is consumed while
other handles change the settings.  All the same the stage is what its events make of it in the
order in which the lock was held (`SharedStage.stage_of_run?`).  For each handle, what it has passed
on together with what it still holds is what the stage made of its reports
(`SharedStage.exists_accounts_of_run?`), since each step keeps such accounts and accounts add up.
Whatever interleaving of the calls of the handles is taken, it runs to the end
(`SharedStage.exists_run?_of_interleaves`).

What becomes of one report is settled at the moment when it is processed (`Stage.Treated`): all of
its channels go by the set of filters that was in use then. -/

namespace PenFilter

/-! ### One report in its place -/

/-- What a stage makes of a report after some events.  Before any settings are accepted the report
stays as it is.  Then every channel of it is computed by the one set of filters that was in use
behind the latest settings accepted.  It is the set of the settings compiled last, and those are the
ones accepted last where fingerprints tell settings apart. -/
inductive Stage.Treated (tablet : Tablet) (events : List Event) (raw : Report) : Prop
  | untouched : ((ofTablet tablet).trace events).any accepts = false →
    (((ofTablet tablet).run events).process raw).2 = raw → Treated tablet events raw
  | filtered {before after : List Event} {settings : Settings} {filters : FilterSet} :
    events = before ++ .configure settings :: after →
    LatestAt accepts (ofTablet tablet) before (.configure settings) after →
    (((ofTablet tablet).run before).configure settings).1.filters = some filters →
    (∃ source, (ofTablet tablet).source? events = some source ∧
      (FilterSet.compile source).2 = .ok filters) →
    (ToldApart (events.filterMap Event.settings?) →
      (FilterSet.compile settings).2 = .ok filters) →
    (∀ buffer, ((ofTablet tablet).run events).Applies filters raw
      (filters.variant.gather raw ((ofTablet tablet).run events).history
        ((ofTablet tablet).run events).tablet buffer)) →
    Treated tablet events raw

theorem Stage.treated (tablet : Tablet) (events : List Event) (raw : Report) :
    Treated tablet events raw := by
  rcases exists_latest_accepted tablet events with ⟨hunused, hfilters⟩ |
    ⟨before, settings, after, outcome, filters, hevents, hlatest, hok, hset, hfilters⟩
  · exact .untouched hunused (by simp [process, hfilters])
  · have hmem : ∀ e ∈ events, ∀ given, e.settings? = some given →
        given ∈ events.filterMap Event.settings? :=
      fun e he given hgiven => List.mem_filterMap.mpr ⟨e, he, hgiven⟩
    have hstart := inUse_ofTablet tablet (events.filterMap Event.settings?)
    have hwell := (wellFormed_ofTablet tablet).run events
    have happlies := hwell.applies (hstart.run hmem) hfilters raw
    refine .filtered hevents hlatest hset (filters_run_eq_some_iff.mp hfilters) ?_ happlies
    intro happart
    have hbefore : ((ofTablet tablet).run before).InUse (events.filterMap Event.settings?) :=
      hstart.run fun e he => hmem e (by simp [hevents, he])
    obtain ⟨compiled, hcompile, hcompiled⟩ := hbefore.filters_configure happart
      (hmem (.configure settings) (by simp [hevents]) settings rfl) hok
    rw [hset] at hcompiled
    obtain rfl := Option.some.inj hcompiled
    exact hcompile

/-- What a handle passes on and what it holds in the end are what it held before and what the stage
has made for it since, in this order; its sink has taken what was passed on. -/
structure Handle.Accounts (h h' : Handle) (processed emitted : List Report) : Prop where
  reports : emitted ++ h'.pending.toList = h.pending.toList ++ processed
  sink : h'.sink = emitted.foldl Sink.emit h.sink

theorem Handle.Accounts.refl (h : Handle) : h.Accounts h [] [] :=
  ⟨(List.append_nil _).symm, rfl⟩

theorem Handle.Accounts.trans {a b c : Handle} {processed processed' emitted emitted' : List Report}
    (h : a.Accounts b processed emitted) (h' : b.Accounts c processed' emitted') :
    a.Accounts c (processed ++ processed') (emitted ++ emitted') where
  reports := by
    rw [List.append_assoc, h'.reports, ← List.append_assoc, h.reports, List.append_assoc]
  sink := by rw [List.foldl_append, ← h.sink, h'.sink]

namespace SharedStage

variable {s t : SharedStage} {step : Step} {steps : List Step} {i : Nat} {h : Handle}

/-! ### What a step does -/

theorem step?_cases (hstep : s.step? step = some t) :
    (∃ e, step = .change e ∧ t = { s with stage := s.stage.after e }) ∨
    (∃ i raw sink, step = .process i raw ∧ s.handles[i]? = some ⟨none, sink⟩ ∧
      t = ⟨(s.stage.process raw).1, s.handles.set i ⟨some (s.stage.process raw).2, sink⟩⟩) ∨
    ∃ i report sink, step = .emit i ∧ s.handles[i]? = some ⟨some report, sink⟩ ∧
      t = { s with handles := s.handles.set i ⟨none, sink.emit report⟩ } := by
  cases step with
  | change e =>
      left
      exact ⟨e, rfl, (Option.some.inj hstep).symm⟩
  | process i raw =>
      right; left
      rw [step?] at hstep
      rcases hi : s.handles[i]? with _ | ⟨_ | report, sink⟩
      · rw [hi] at hstep
        cases hstep
      · rw [hi] at hstep
        exact ⟨i, raw, sink, rfl, hi, (Option.some.inj hstep).symm⟩
      · rw [hi] at hstep
        cases hstep
  | emit i =>
      right; right
      rw [step?] at hstep
      rcases hi : s.handles[i]? with _ | ⟨_ | report, sink⟩
      · rw [hi] at hstep
        cases hstep
      · rw [hi] at hstep
        cases hstep
      · rw [hi] at hstep
        exact ⟨i, report, sink, rfl, hi, (Option.some.inj hstep).symm⟩

theorem run?_cons :
    s.run? (step :: steps) = some t ↔ ∃ u, s.step? step = some u ∧ u.run? steps = some t :=
  Option.bind_eq_some_iff

/-! ### The stage -/

/-- What the stage sees of some steps, in the order in which the lock was held. -/
def lockOrder (steps : List Step) : List Stage.Event := steps.filterMap Step.event?

theorem lockOrder_cons (step : Step) (steps : List Step) :
    lockOrder (step :: steps) = step.event?.toList ++ lockOrder steps := by
  unfold lockOrder
  rw [List.filterMap_cons]
  cases step.event? <;> rfl

theorem stage_of_step? (hstep : s.step? step = some t) :
    t.stage = s.stage.run step.event?.toList := by
  rcases step?_cases hstep with ⟨e, rfl, rfl⟩ | ⟨i, raw, sink, rfl, -, rfl⟩ |
    ⟨i, report, sink, rfl, -, rfl⟩
  · rfl
  · rfl
  · rfl

/-- The stage has gone through the events of the steps in lock order. -/
theorem stage_of_run? (hrun : s.run? steps = some t) : t.stage = s.stage.run (lockOrder steps) := by
  induction steps generalizing s with
  | nil =>
      obtain rfl := Option.some.inj hrun
      rfl
  | cons step steps ih =>
      obtain ⟨u, hstep, hrest⟩ := run?_cons.mp hrun
      rw [lockOrder_cons, Stage.run_append, ← stage_of_step? hstep]
      exact ih hrest

/-! ### The reports of a handle -/

/-- The report that handle `i` processes in a step. -/
def Step.report? (i : Nat) : Step → Option Report
  | process j raw => if j = i then some raw else none
  | change _ | emit _ => none

/-- The reports that handle `i` processes in some steps, each with what the stage makes of it when
it goes through the steps in lock order. -/
def processedBy (i : Nat) : Stage → List Step → List (Report × Report)
  | _, [] => []
  | stage, step :: steps =>
    (step.report? i).toList.map (fun raw => (raw, (stage.process raw).2)) ++
      processedBy i (stage.run step.event?.toList) steps

theorem map_fst_processedBy (i : Nat) (stage : Stage) (steps : List Step) :
    (processedBy i stage steps).map Prod.fst = steps.filterMap (Step.report? i) := by
  induction steps generalizing stage with
  | nil => rfl
  | cons step steps ih =>
      rw [processedBy, List.map_append, ih, List.filterMap_cons]
      cases step.report? i <;> rfl

theorem processedBy_append (i : Nat) (stage : Stage) (before after : List Step) :
    processedBy i stage (before ++ after) =
      processedBy i stage before ++ processedBy i (stage.run (lockOrder before)) after := by
  induction before generalizing stage with
  | nil => rfl
  | cons step before ih =>
      rw [List.cons_append, processedBy, processedBy, ih, lockOrder_cons, Stage.run_append,
        List.append_assoc]

/-- The report that a step of handle `i` passes on. -/
def emitted? (i : Nat) (s : SharedStage) : Step → Option Report
  | .emit j => if j = i then s.handles[i]?.bind Handle.pending else none
  | .change _ | .process _ _ => none

/-- The reports that handle `i` passes on in some steps. -/
def emittedBy (i : Nat) : SharedStage → List Step → List Report
  | _, [] => []
  | s, step :: steps =>
    (emitted? i s step).toList ++
      match s.step? step with
      | some t => emittedBy i t steps
      | none => []

/-- A step leaves the other handles alone, and its own handle holds no more than one report. -/
theorem exists_accounts_of_step? (hstep : s.step? step = some t) (hi : s.handles[i]? = some h) :
    ∃ h', t.handles[i]? = some h' ∧
      h.Accounts h' ((step.report? i).toList.map fun raw => (s.stage.process raw).2)
        (emitted? i s step).toList := by
  have hlt : i < s.handles.length := (List.getElem?_eq_some_iff.mp hi).1
  rcases step?_cases hstep with ⟨e, rfl, rfl⟩ | ⟨j, raw, sink, rfl, hj, rfl⟩ |
    ⟨j, report, sink, rfl, hj, rfl⟩
  · exact ⟨h, hi, .refl h⟩
  · by_cases hji : j = i
    · subst hji
      rw [hj] at hi
      obtain rfl := Option.some.inj hi
      refine ⟨_, List.getElem?_set_self hlt, ⟨?_, rfl⟩⟩
      simp [Step.report?, emitted?]
    · refine ⟨h, by rw [List.getElem?_set_ne hji, hi], ?_⟩
      rw [Step.report?, if_neg hji]
      exact .refl h
  · by_cases hji : j = i
    · subst hji
      rw [hj] at hi
      obtain rfl := Option.some.inj hi
      refine ⟨_, List.getElem?_set_self hlt, ⟨?_, ?_⟩⟩
      · simp [Step.report?, emitted?, hj]
      · simp [emitted?, hj]
    · refine ⟨h, by rw [List.getElem?_set_ne hji, hi], ?_⟩
      rw [emitted?, if_neg hji]
      exact .refl h

/-- What a handle has passed on, with what it still holds, is what the stage made of its reports in
lock order: none is lost, none comes twice, and each is where it was consumed. -/
theorem exists_accounts_of_run? (hrun : s.run? steps = some t) (hi : s.handles[i]? = some h) :
    ∃ h', t.handles[i]? = some h' ∧
      h.Accounts h' ((processedBy i s.stage steps).map Prod.snd) (emittedBy i s steps) := by
  induction steps generalizing s h with
  | nil =>
      obtain rfl := Option.some.inj hrun
      exact ⟨h, hi, .refl h⟩
  | cons step steps ih =>
      obtain ⟨u, hstep, hrest⟩ := run?_cons.mp hrun
      obtain ⟨between, hbetween, hfirst⟩ := exists_accounts_of_step? hstep hi
      obtain ⟨h', hlast, hlater⟩ := ih hrest hbetween
      refine ⟨h', hlast, ?_⟩
      rw [processedBy, emittedBy, hstep, List.map_append, List.map_map, ← stage_of_step? hstep]
      exact hfirst.trans hlater

/-! ### Interleavings -/

/-- What the user of a handle asks for. -/
inductive Call where
  | consume (raw : Report)
  | change (event : Stage.Event)

/-- The steps that handle `i` takes for a call. -/
def Call.toSteps (i : Nat) : Call → List Step
  | consume raw => consumption i raw
  | change event => [.change event]

def Call.report? : Call → Option Report
  | consume raw => some raw
  | change _ => none

/-- The steps are those of the programs, in an order that keeps the order of each program. -/
inductive Interleaves : List (List Step) → List Step → Prop
  | done {programs : List (List Step)} : (∀ program ∈ programs, program = []) →
    Interleaves programs []
  | next {programs : List (List Step)} {i : Nat} {step : Step} {rest steps : List Step} :
    programs[i]? = some (step :: rest) → Interleaves (programs.set i rest) steps →
    Interleaves programs (step :: steps)

/-- The steps that handle `i` has before it: it passes on what it holds, and goes on with its
calls. -/
def due (i : Nat) (user : Handle × List Call) : List Step :=
  (if user.1.pending.isSome then [.emit i] else []) ++ user.2.flatMap (Call.toSteps i)

theorem due_eq_nil {user : Handle × List Call} (hdue : due i user = []) :
    user.1.pending = none ∧ user.2 = [] := by
  obtain ⟨hpending, hcalls⟩ := List.append_eq_nil_iff.mp hdue
  constructor
  · cases hheld : user.1.pending with
    | none => rfl
    | some report => simp [hheld] at hpending
  · cases hasked : user.2 with
    | nil => rfl
    | cons call calls =>
        rw [hasked] at hcalls
        cases call with
        | consume raw => cases hcalls
        | change e => cases hcalls

/-- The first of the steps that a handle has before it can be taken, and leaves the others to be
taken. -/
theorem exists_step?_of_due {users : List (Handle × List Call)} {user : Handle × List Call}
    {rest : List Step} (hhandles : s.handles = users.map Prod.fst) (hi : users[i]? = some user)
    (hdue : due i user = step :: rest) :
    ∃ t user', s.step? step = some t ∧ t.handles = (users.set i user').map Prod.fst ∧
      due i user' = rest ∧
      user.2.filterMap Call.report? =
        (step.report? i).toList ++ user'.2.filterMap Call.report? ∧
      ∀ j ≠ i, step.report? j = none := by
  obtain ⟨⟨pending, sink⟩, calls⟩ := user
  have hhandle : s.handles[i]? = some ⟨pending, sink⟩ := by
    rw [hhandles, List.getElem?_map, hi, Option.map_some]
  -- a handle that holds a report has to pass it on; otherwise its next call decides
  cases pending with
  | some report =>
      obtain ⟨rfl, rfl⟩ := List.cons.inj hdue
      refine ⟨_, (⟨none, sink.emit report⟩, calls), by rw [step?, hhandle], ?_, rfl, rfl,
        fun _ _ => rfl⟩
      rw [List.map_set, hhandles]
  | none =>
      cases calls with
      | nil => cases hdue
      | cons call calls =>
          cases call with
          | consume raw =>
              have hsteps : Step.process i raw :: Step.emit i :: calls.flatMap (Call.toSteps i) =
                  step :: rest := hdue
              obtain ⟨rfl, rfl⟩ := List.cons.inj hsteps
              refine ⟨_, (⟨some (s.stage.process raw).2, sink⟩, calls), by rw [step?, hhandle], ?_,
                rfl, ?_, fun j hj => ?_⟩
              · rw [List.map_set, hhandles]
              · simp [Step.report?, Call.report?]
              · rw [Step.report?, if_neg (Ne.symm hj)]
          | change e =>
              have hsteps : Step.change e :: calls.flatMap (Call.toSteps i) = step :: rest := hdue
              obtain ⟨rfl, rfl⟩ := List.cons.inj hsteps
              refine ⟨_, (⟨none, sink⟩, calls), rfl, ?_, rfl, rfl, fun _ _ => rfl⟩
              rw [List.map_set, ← hhandles]
              obtain ⟨hlt, hself⟩ := List.getElem?_eq_some_iff.mp hhandle
              rw [← hself, List.set_getElem_self]

/-- No handle ever waits for another: an interleaving of what the handles have before them runs to
the end, each has nothing left to pass on then, and it has processed the reports of its calls in
their order. -/
theorem exists_run?_of_interleaves {programs : List (List Step)}
    (hsteps : Interleaves programs steps) {users : List (Handle × List Call)}
    (hprograms : programs = users.mapIdx due) (hhandles : s.handles = users.map Prod.fst) :
    ∃ t, s.run? steps = some t ∧ (∀ h ∈ t.handles, h.pending = none) ∧
      ∀ i user, users[i]? = some user →
        steps.filterMap (Step.report? i) = user.2.filterMap Call.report? := by
  -- `users` are the handles as they are now, with the calls that are left to each
  induction hsteps generalizing s users with
  | done hempty =>
      subst hprograms
      have hidle : ∀ (i : Nat) (user : Handle × List Call), users[i]? = some user →
          user.1.pending = none ∧ user.2 = [] := by
        intro i user hi
        refine due_eq_nil (i := i) (hempty _ (List.mem_of_getElem? (i := i) ?_))
        rw [List.getElem?_mapIdx, hi, Option.map_some]
      refine ⟨s, rfl, ?_, fun i user hi => ?_⟩
      · intro h hh
        rw [hhandles] at hh
        obtain ⟨user, huser, rfl⟩ := List.mem_map.mp hh
        obtain ⟨i, hi⟩ := List.mem_iff_getElem?.mp huser
        exact (hidle i user hi).1
      · rw [(hidle i user hi).2]
        rfl
  | @next programs i step rest steps hi hrest ih =>
      subst hprograms
      rw [List.getElem?_mapIdx] at hi
      obtain ⟨user, huser, hdue⟩ := Option.map_eq_some_iff.mp hi
      obtain ⟨t, user', hstep, hhandles', rfl, hreports, hothers⟩ :=
        exists_step?_of_due hhandles huser hdue
      obtain ⟨u, hrun, hidle, hdone⟩ := ih List.mapIdx_set.symm hhandles'
      refine ⟨u, run?_cons.mpr ⟨t, hstep, hrun⟩, hidle, fun j other hj => ?_⟩
      rw [List.filterMap_cons]
      by_cases hij : i = j
      · subst hij
        rw [huser] at hj
        obtain rfl := Option.some.inj hj
        have hlt := (List.getElem?_eq_some_iff.mp huser).1
        rw [hdone i user' (List.getElem?_set_self hlt), hreports]
        cases step.report? i <;> rfl
      · rw [hothers j (Ne.symm hij), hdone j other (by rw [List.getElem?_set_ne hij, hj])]

/-! ### Handles of one stage -/

/-- What some steps of the handles of a stage come to, where the stage was reached by the events of
`setup`.  The stage, and all that it makes of the reports, are those of the stage that goes through
the events alone, in lock order. -/
structure Serial (tablet : Tablet) (setup : List Stage.Event) (sinks : List Sink)
    (steps : List Step) (s : SharedStage) : Prop where
  stage : s.stage = (Stage.ofTablet tablet).run (setup ++ lockOrder steps)
  consumed : s.stage.consumed = (setup ++ lockOrder steps).countP Stage.Event.isReport
  /-- a handle processes the reports that it consumes, once each and in their order -/
  reports : ∀ i, (processedBy i ((Stage.ofTablet tablet).run setup) steps).map Prod.fst =
    steps.filterMap (Step.report? i)
  accounts : ∀ i sink, sinks[i]? = some sink → ∃ h, s.handles[i]? = some h ∧
    Handle.Accounts { sink } h
      ((processedBy i ((Stage.ofTablet tablet).run setup) steps).map Prod.snd)
      (emittedBy i (ofStage ((Stage.ofTablet tablet).run setup) sinks) steps)
  /-- a report is treated as at its place in lock order -/
  place : ∀ before i raw after, steps = before ++ .process i raw :: after →
    processedBy i ((Stage.ofTablet tablet).run setup) steps =
      processedBy i ((Stage.ofTablet tablet).run setup) before ++
        (raw, (((Stage.ofTablet tablet).run (setup ++ lockOrder before)).process raw).2) ::
        processedBy i ((Stage.ofTablet tablet).run
          (setup ++ lockOrder before ++ [.process raw])) after ∧
    Stage.Treated tablet (setup ++ lockOrder before) raw

theorem serial_of_run? {tablet : Tablet} {setup : List Stage.Event} {sinks : List Sink}
    (hrun : (ofStage ((Stage.ofTablet tablet).run setup) sinks).run? steps = some s) :
    Serial tablet setup sinks steps s := by
  have hstage : s.stage = (Stage.ofTablet tablet).run (setup ++ lockOrder steps) := by
    rw [Stage.run_append]
    exact stage_of_run? hrun
  refine ⟨hstage, ?_, fun i => map_fst_processedBy _ _ _, fun i sink hi => ?_, ?_⟩
  · rw [hstage, Stage.consumed_run]
    exact Nat.zero_add _
  · refine exists_accounts_of_run? hrun ?_
    show (sinks.map _)[i]? = _
    rw [List.getElem?_map, hi, Option.map_some]
  · rintro before i raw after rfl
    refine ⟨?_, Stage.treated _ _ _⟩
    rw [processedBy_append, processedBy, ← Stage.run_append, ← Stage.run_append, Step.report?,
      if_pos rfl]
    rfl

/-- **A shared stage is the stage in lock order.**  Take any number of handles and any steps of
theirs that can be taken in turn.  The stage is the one after the events in lock order, and has
counted the reports processed.  Each handle has passed on its own reports, as the stage made them,
once each and in the order in which it consumed them, except for the one that it may still hold.
Each report was computed by the set of filters in use when it was processed.  If the steps
interleave the calls of the handles they can all be taken, and in the end no report is held back. -/
theorem interleaved_as_in_lockOrder (tablet : Tablet) (setup : List Stage.Event) :
    (∀ sinks steps s, (ofStage ((Stage.ofTablet tablet).run setup) sinks).run? steps = some s →
      Serial tablet setup sinks steps s) ∧
    ∀ (users : List (Sink × List Call)) (steps : List Step),
      Interleaves (users.mapIdx fun i user => user.2.flatMap (Call.toSteps i)) steps →
      ∃ s, (ofStage ((Stage.ofTablet tablet).run setup) (users.map Prod.fst)).run? steps = some s ∧
        Serial tablet setup (users.map Prod.fst) steps s ∧ (∀ h ∈ s.handles, h.pending = none) ∧
        ∀ i user, users[i]? = some user →
          steps.filterMap (Step.report? i) = user.2.filterMap Call.report? := by
  refine ⟨fun _ _ _ => serial_of_run?, fun users steps hsteps => ?_⟩
  let begun : List (Handle × List Call) := users.map fun user => ({ sink := user.1 }, user.2)
  have hprograms : (users.mapIdx fun i user => user.2.flatMap (Call.toSteps i)) =
      begun.mapIdx due := by
    refine List.ext_getElem? fun i => ?_
    rw [List.getElem?_mapIdx, List.getElem?_mapIdx, List.getElem?_map]
    cases users[i]? <;> rfl
  have hhandles : (ofStage ((Stage.ofTablet tablet).run setup) (users.map Prod.fst)).handles =
      begun.map Prod.fst := by
    show (users.map Prod.fst).map _ = (users.map _).map _
    rw [List.map_map, List.map_map]
    rfl
  obtain ⟨s, hrun, hidle, hdone⟩ := exists_run?_of_interleaves hsteps hprograms hhandles
  refine ⟨s, hrun, serial_of_run? hrun, hidle, fun i user hi => ?_⟩
  exact hdone i ({ sink := user.1 }, user.2) (by rw [List.getElem?_map, hi, Option.map_some])

/-- The theorem at a report that waits while another handle gives settings: it is passed on as it
came, the next one of its handle as the settings say. -/
theorem interleaved_as_in_lockOrder_waiting_report :
    let at1 : Report := { position := some ⟨.ofInt _ 1, .ofInt _ 1⟩ }
    let at2 : Report := { position := some ⟨.ofInt _ 2, .ofInt _ 1⟩ }
    let users : List (Sink × List Call) :=
      [(.collecting [], [.consume at1, .consume at1]),
        (.collecting [], [.consume at2, .change (.configure { x := "x + 1" })])]
    let steps : List Step :=
      [.process 0 at1, .process 1 at2, .emit 1, .change (.configure { x := "x + 1" }), .emit 0,
        .process 0 at1, .emit 0]
    let start := ofStage ((Stage.ofTablet ⟨.zero, .zero, 0⟩).run []) (users.map Prod.fst)
    (∃ s, start.run? steps = some s ∧ Serial ⟨.zero, .zero, 0⟩ [] (users.map Prod.fst) steps s ∧
      ∀ h ∈ s.handles, h.pending = none) ∧
    (start.run? steps).map handles =
      some [{ sink := .collecting [at1, at2] }, { sink := .collecting [at2] }] := by
  intro at1 at2 users steps start
  have hsteps : Interleaves (users.mapIdx fun i user => user.2.flatMap (Call.toSteps i)) steps :=
    .next (i := 0) rfl <| .next (i := 1) rfl <| .next (i := 1) rfl <| .next (i := 1) rfl <|
      .next (i := 0) rfl <| .next (i := 0) rfl <| .next (i := 0) rfl <| .done (by decide)
  obtain ⟨s, hrun, hserial, hidle, -⟩ :=
    (interleaved_as_in_lockOrder ⟨.zero, .zero, 0⟩ []).2 users steps hsteps
  exact ⟨⟨s, hrun, hserial, hidle⟩, by decide +kernel⟩

end SharedStage

end PenFilter
