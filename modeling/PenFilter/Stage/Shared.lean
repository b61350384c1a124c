import PenFilter.Stage

/-! # A stage with several handles

A `SharedStage` is one stage behind a lock, with a sink for each of its handles.  To consume a
report a handle takes two steps: it processes the report under the lock and then, without the
lock, passes the result on.  Between the two any other handle may step.  Everything else a
handle does is one step under the lock.

`SharedStage.run?` is a sequence of steps in the order in which they happen; a step that its
handle cannot take makes it `none`.  `Step.event?` is a step's share in the lock order. -/

namespace PenFilter

/-- A user of a shared stage. -/
structure Handle where
  /-- the processed report that has not been passed on yet -/
  pending : Option Report := none
  sink : Sink := .collecting []
deriving DecidableEq

structure SharedStage where
  stage : Stage
  handles : List Handle

namespace SharedStage

inductive Step where
  /-- a change of the stage under the lock -/
  | change (event : Stage.Event)
  /-- the first half of consuming a report -/
  | process (handle : Nat) (report : Report)
  /-- the second half of consuming a report -/
  | emit (handle : Nat)

/-- What the stage sees of a step. -/
def Step.event? : Step → Option Stage.Event
  | change event => some event
  | process _ report => some (.process report)
  | emit _ => none

/-- A stage with one handle for each sink. -/
def ofStage (stage : Stage) (sinks : List Sink) : SharedStage :=
  ⟨stage, sinks.map fun sink => { sink }⟩

/-- The state after a step.  A handle processes a report only when it has none to pass on. -/
def step? (s : SharedStage) : Step → Option SharedStage
  | .change event => some { s with stage := s.stage.after event }
  | .process i raw =>
    match s.handles[i]? with
    | some ⟨none, sink⟩ =>
      let (stage, report) := s.stage.process raw
      some ⟨stage, s.handles.set i ⟨some report, sink⟩⟩
    | _ => none
  | .emit i =>
    match s.handles[i]? with
    | some ⟨some report, sink⟩ =>
      some { s with handles := s.handles.set i ⟨none, sink.emit report⟩ }
    | _ => none

/-- The state after steps in turn. -/
def run? : SharedStage → List Step → Option SharedStage
  | s, [] => some s
  | s, step :: steps => (s.step? step).bind (run? · steps)

/-- The two steps in which a handle consumes a report. -/
def consumption (handle : Nat) (raw : Report) : List Step := [.process handle raw, .emit handle]

end SharedStage

end PenFilter
