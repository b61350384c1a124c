import PenFilter.Formula.Program.Compile
import PenFilter.Settings.Fingerprint

/-! # Filter sets

A `FilterSet` holds a program for every channel of a variant.  A formula that does not compile
is replaced by the identity of its channel, and the rejection is kept beside it, so that one bad
formula never stops the others.  `FilterSet.compile` answers with the rejections in the order in
which they are found, together with the set or the reason why there is none. -/

namespace PenFilter

/-- A formula that was replaced by the identity of its channel. -/
structure Rejection where
  channel : Channel
  formula : String
  error : FormulaError
deriving DecidableEq

structure ChannelFilter where
  channel : Channel
  /-- the formula of the settings, also when it was rejected -/
  formula : String
  /-- what runs for the channel -/
  program : Program
  /-- why the formula was replaced by the identity, if it was -/
  rejected : Option FormulaError
deriving DecidableEq

structure FilterSet where
  variant : Variant
  fingerprint : UInt64
  channels : List ChannelFilter
  /-- the deepest stack that any channel needs -/
  maxStack : Nat
deriving DecidableEq

namespace ChannelFilter

def rejection? (f : ChannelFilter) : Option Rejection :=
  f.rejected.map fun error => ⟨f.channel, f.formula, error⟩

/-- The filter of one channel, and the rejection of its formula if there is one. -/
def compile (schema : Schema) (c : Channel) (formula : String) :
    List Rejection × Except SettingsError ChannelFilter :=
  match Program.ofFormula schema formula with
  | .ok program => ([], .ok ⟨c, formula, program, none⟩)
  | .error error =>
    ([⟨c, formula, error⟩],
      match Program.ofFormula schema c.identity with
      | .ok program => .ok ⟨c, formula, program, some error⟩
      | .error error => .error (.fallbackFailed c error))

/-- The filters of a list of channels; the first that fails ends the list. -/
def compileAll (schema : Schema) (s : Settings) :
    List Channel → List Rejection × Except SettingsError (List ChannelFilter)
  | [] => ([], .ok [])
  | c :: cs =>
    match compile schema c (s.formula c) with
    | (rejections, .error error) => (rejections, .error error)
    | (rejections, .ok filter) =>
      let (more, filters) := compileAll schema s cs
      (rejections ++ more, filters.map (filter :: ·))

end ChannelFilter

namespace FilterSet

/-- The formulas that were replaced by identities. -/
def rejections (s : FilterSet) : List Rejection := s.channels.filterMap (·.rejection?)

/-- The filter set of some settings. -/
def compile (s : Settings) : List Rejection × Except SettingsError FilterSet :=
  match s.validate with
  | .error error => ([], .error error)
  | .ok () =>
    let variant := s.filterVariant
    let (rejections, channels) := ChannelFilter.compileAll variant.schema s variant.channels
    (rejections, channels.map fun channels =>
      ⟨variant, s.fingerprint, channels, (channels.map (·.program.maxStack)).max?.getD 0⟩)

end FilterSet

end PenFilter
