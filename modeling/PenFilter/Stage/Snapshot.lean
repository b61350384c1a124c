import PenFilter.Stage

/-! # Views of a stage

A `Snapshot` is what a stage shows of its state: the channels with the formulas given for them
and the formulas that run.  `Stage.describe` is a complete description for debugging. -/

namespace PenFilter

structure ChannelSnapshot where
  channel : Channel
  formula : String
  /-- the text of the program that runs -/
  active : String
  /-- why the formula was replaced, if it was -/
  fallback : Option String
deriving DecidableEq

structure Snapshot where
  isReady : Bool
  variant : Option String
  fingerprint : Option UInt64
  channels : List ChannelSnapshot
  consumed : Nat
deriving DecidableEq

namespace Snapshot

/-- How many channels run an identity in place of their formula. -/
def fallbackCount (s : Snapshot) : Nat := s.channels.countP (·.fallback.isSome)

end Snapshot

def ChannelFilter.snapshot (f : ChannelFilter) : ChannelSnapshot :=
  ⟨f.channel, f.formula, f.program.source, f.rejected.map FormulaError.message⟩

namespace Stage

def isReady (s : Stage) : Bool := s.filters.isSome

/-- The word for the state of the stage. -/
def stateName (s : Stage) : String := if s.isReady then "ready" else "uncompiled"

def snapshot (s : Stage) : Snapshot where
  isReady := s.isReady
  variant := s.variant?.map Variant.text
  fingerprint := s.filters.map (·.fingerprint)
  channels := (s.filters.map (·.channels)).getD [] |>.map ChannelFilter.snapshot
  consumed := s.consumed

end Stage

/-! ### Descriptions -/

namespace ParseError

/-- The error with the names of its fields. -/
def describe : ParseError → String
  | empty => "Empty"
  | unexpectedChar c offset =>
    quotedRecord "UnexpectedChar"
      [("found", quotedLetter c), ("offset", Decimal.text offset)]
  | invalidNumber s offset =>
    quotedRecord "InvalidNumber" [("text", quoted s), ("offset", Decimal.text offset)]
  | unexpectedToken t e offset =>
    quotedRecord "UnexpectedToken"
      [("found", quoted t.text), ("expected", quoted e.text), ("offset", Decimal.text offset)]
  | unexpectedEnd e => quotedRecord "UnexpectedEnd" [("expected", quoted e.text)]
  | unknownVariable s offset =>
    quotedRecord "UnknownVariable" [("name", quoted s), ("offset", Decimal.text offset)]
  | unknownFunction s offset =>
    quotedRecord "UnknownFunction" [("name", quoted s), ("offset", Decimal.text offset)]
  | wrongArity f n =>
    quotedRecord "WrongArity"
      [("function", quoted f.name), ("expected", Decimal.text f.arity),
        ("found", Decimal.text n)]
  | tooDeep => quotedRecord "TooDeep" [("limit", Decimal.text maxDepth)]
  | tooLarge => quotedRecord "TooLarge" [("limit", Decimal.text maxOperations)]

end ParseError

def CompileError.describe : CompileError → String
  | slotOutOfRange s slot size =>
    quotedRecord "SlotOutOfRange"
      [("name", quoted s), ("slot", Decimal.text slot), ("schema_len", Decimal.text size)]
  | schemaMismatch s s' slot =>
    quotedRecord "SchemaMismatch"
      [("name", quoted s), ("schema_name", quoted s'), ("slot", Decimal.text slot)]

def FormulaError.describe : FormulaError → String
  | parse e => "Parse(" ++ e.describe ++ ")"
  | compile e => "Compile(" ++ e.describe ++ ")"

def Variant.describe : Variant → String
  | basic => "Basic"
  | extended => "Extended"
  | multiSample n => quotedRecord "MultiSample" [("samples", Decimal.text n)]

def Tablet.describe (t : Tablet) : String :=
  quotedRecord "TabletSpec"
    [("max_x", t.maxX.text .debug), ("max_y", t.maxY.text .debug),
      ("max_pressure", Decimal.text t.maxPressure.toNat)]

def ChannelFilter.describe (f : ChannelFilter) : String :=
  quotedRecord "CompiledChannel"
    [("channel", f.channel.caption), ("formula", quoted f.formula),
      ("expression", f.program.describe),
      ("fallback", quotedOption (f.rejected.map FormulaError.describe))]

def FilterSet.describe (s : FilterSet) : String :=
  quotedRecord "CompiledChannels"
    [("variant", s.variant.describe), ("settings_hash", Decimal.text s.fingerprint.toNat),
      ("channels", quotedList (s.channels.map ChannelFilter.describe)),
      ("max_stack", Decimal.text s.maxStack)]

/-- The stage without its memory. -/
def Stage.describe (s : Stage) : String :=
  quotedOpenRecord "FormulaStage"
    [("spec", s.tablet.describe), ("compiled", quotedOption (s.filters.map FilterSet.describe)),
      ("reports_consumed", Decimal.text s.consumed)]

end PenFilter
