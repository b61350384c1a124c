import PenFilter.Filter.Set

/-! # The filter stage

A `Stage` sits between a device and its consumer.  Until it has been given settings it passes
reports on unchanged; then it computes every channel of its variant from the raw report, the
memory and the tablet, and writes the results back.  All channels see the raw report, none
another's result.

* `Stage.configure` installs a filter set, unless the settings have the fingerprint of the set
  in use.  The memory is kept unless the variant changes.
* `Stage.process` takes one report.  A channel whose measurement is missing is left out.
* `Stage.run` is a sequence of such events. -/

namespace PenFilter

/-- Buffers that are used again for every report. -/
structure Workspace where
  values : Array Double := #[]
  stack : Stack := []

structure Stage where
  tablet : Tablet
  /-- the set in use, once there is one -/
  filters : Option FilterSet := none
  history : History := .ofCapacity 0
  workspace : Workspace := {}
  /-- how many reports have been taken -/
  consumed : Nat := 0

/-- What configuring a stage led to. -/
structure Outcome where
  /-- false when the set in use was kept -/
  recompiled : Bool
  /-- the formulas that the set in use replaces by identities -/
  fallbacks : List Rejection
deriving DecidableEq

def Outcome.isClean (o : Outcome) : Bool := o.fallbacks.isEmpty

/-- A computed sample with the value of a channel; the tilt is not kept. -/
def ComputedSample.record (s : ComputedSample) (c : Channel) (value : Double) : ComputedSample :=
  match c with
  | .x => { s with x := value }
  | .y => { s with y := value }
  | .pressure => { s with pressure := value }
  | .tiltX | .tiltY => s

namespace Stage

/-- A stage without filters. -/
def ofTablet (tablet : Tablet) : Stage := { tablet }

def variant? (s : Stage) : Option Variant := s.filters.map (·.variant)

/-- The stage with a set in use; another variant begins with an empty memory. -/
def install (s : Stage) (filters : FilterSet) : Stage :=
  { s with
    filters := some filters
    history :=
      if s.variant? = some filters.variant then s.history
      else .ofCapacity filters.variant.sampleCapacity }

/-- The stage after some settings, the rejections found on the way, and what came of it.  A
failure leaves the stage as it was. -/
def configure (s : Stage) (settings : Settings) :
    Stage × List Rejection × Except SettingsError Outcome :=
  match s.filters.filter (·.fingerprint == settings.fingerprint) with
  | some current => (s, [], .ok ⟨false, current.rejections⟩)
  | none =>
    match FilterSet.compile settings with
    | (rejections, .error error) => (s, rejections, .error error)
    | (rejections, .ok filters) =>
      (s.install filters, rejections, .ok ⟨true, filters.rejections⟩)

/-- What the channels have made of a report so far. -/
structure Progress where
  report : Report
  computed : ComputedSample
  stack : Stack

/-- One channel's share of a report whose variables have the given values. -/
def runChannel (raw : Report) (values : Array Double) (p : Progress) (f : ChannelFilter) :
    Progress :=
  if raw.has f.channel.capability then
    let (value, stack) := f.program.call values p.stack
    { report := f.channel.write p.report value.re
      computed := p.computed.record f.channel value.re
      stack }
  else p

/-- The stage after a report, and the report it passes on. -/
def process (s : Stage) (raw : Report) : Stage × Report :=
  match s.filters with
  | none => ({ s with consumed := s.consumed + 1 }, raw)
  | some filters =>
    let values := filters.variant.gather raw s.history s.tablet s.workspace.values
    let p := filters.channels.foldl (runChannel raw values)
      ⟨raw, s.history.lastComputed, s.workspace.stack⟩
    ({ s with
        history := s.history.update raw p.computed
        workspace := ⟨values, p.stack⟩
        consumed := s.consumed + 1 }, p.report)

def setTablet (s : Stage) (tablet : Tablet) : Stage := { s with tablet }

def resetHistory (s : Stage) : Stage := { s with history := s.history.reset }

/-- What can happen to a stage. -/
inductive Event where
  | configure (settings : Settings)
  | process (report : Report)
  | setTablet (tablet : Tablet)
  | resetHistory

/-- The stage after an event. -/
def after (s : Stage) : Event → Stage
  | .configure settings => (s.configure settings).1
  | .process report => (s.process report).1
  | .setTablet tablet => s.setTablet tablet
  | .resetHistory => s.resetHistory

/-- The stage after a sequence of events. -/
def run (s : Stage) (events : List Event) : Stage := events.foldl after s

end Stage

/-- Where a stage passes its reports to. -/
inductive Sink where
  /-- keeps the reports in order -/
  | collecting (reports : List Report)
  /-- drops what it is given -/
  | disconnected
deriving DecidableEq

namespace Sink

def emit : Sink → Report → Sink
  | collecting reports, r => .collecting (reports ++ [r])
  | disconnected, _ => .disconnected

/-- What has arrived. -/
def emitted : Sink → List Report
  | collecting reports => reports
  | disconnected => []

end Sink

/-- A report through the stage into a sink, exactly once. -/
def Stage.consume (s : Stage) (raw : Report) (sink : Sink) : Stage × Sink :=
  let (s, report) := s.process raw
  (s, sink.emit report)

end PenFilter
