import PenFilter.Formula.Error
import PenFilter.Variant

/-! # Settings of a filter

`Settings` choose a variant and give one formula to each channel.  Only what the variant uses
matters: the formulas of its own channels, and the number of samples for the variant that keeps
samples.  `Settings.validate` checks that much and no more. -/

namespace PenFilter

/-- The name of a variant in settings. -/
inductive VariantKind where
  | basic | extended | multiSample
deriving DecidableEq, Repr

namespace VariantKind

def all : List VariantKind := [basic, extended, multiSample]

def name : VariantKind → String
  | basic => "basic"
  | extended => "extended"
  | multiSample => "multi_sample"

/-- The position in the order of all kinds. -/
def index : VariantKind → Nat
  | basic => 0
  | extended => 1
  | multiSample => 2

def ofName? (s : String) : Option VariantKind := all.find? (·.name == s)

end VariantKind

structure Settings where
  variant : VariantKind := .basic
  x : String := Channel.identity .x
  y : String := Channel.identity .y
  pressure : String := Channel.identity .pressure
  tiltX : String := Channel.identity .tiltX
  tiltY : String := Channel.identity .tiltY
  /-- how many positions to keep -/
  samples : UInt64 := 1
deriving DecidableEq

/-- Why settings are refused, or could not be read. -/
inductive SettingsError where
  | invalidSampleCount (value : UInt64)
  | formulaTooLong (channel : Channel) (size : Nat)
  | fallbackFailed (channel : Channel) (error : FormulaError)
  /-- the file could not be read, for a reason that the system gives -/
  | unreadable (reason : String)
  | unsupportedFormat (suffix : String)
  /-- the text spells no settings, for a reason that the reader of YAML gives -/
  | notYaml (reason : String)
  /-- the text spells no settings, for a reason that the reader of JSON gives -/
  | notJson (reason : String)
deriving DecidableEq

/-- The smallest number of samples that can be kept. -/
def minSamples : UInt64 := 1

/-- The largest number of samples that can be kept. -/
def maxSamples : UInt64 := 256

/-- The greatest length of a formula in bytes. -/
def maxFormulaSize : Nat := 4096

def SettingsError.message : SettingsError → String
  | invalidSampleCount n =>
    "Sample count must be " ++ Decimal.text minSamples.toNat ++ "-" ++
      Decimal.text maxSamples.toNat ++ ", got " ++ Decimal.text n.toNat
  | formulaTooLong c size =>
    c.label ++ " formula is " ++ Decimal.text size ++ " bytes, limit is " ++
      Decimal.text maxFormulaSize
  | fallbackFailed c e =>
    "Identity fallback for " ++ c.label ++ " failed to compile: " ++ e.message
  | unreadable reason => "Failed to read settings: " ++ reason
  | unsupportedFormat suffix =>
    "Unsupported settings format '" ++ suffix ++ "', expected .yaml, .yml or .json"
  | notYaml reason => "Invalid YAML settings: " ++ reason
  | notJson reason => "Invalid JSON settings: " ++ reason

namespace Settings

def formula (s : Settings) : Channel → String
  | .x => s.x
  | .y => s.y
  | .pressure => s.pressure
  | .tiltX => s.tiltX
  | .tiltY => s.tiltY

def setFormula (s : Settings) (c : Channel) (formula : String) : Settings :=
  match c with
  | .x => { s with x := formula }
  | .y => { s with y := formula }
  | .pressure => { s with pressure := formula }
  | .tiltX => { s with tiltX := formula }
  | .tiltY => { s with tiltY := formula }

theorem formula_setFormula (s : Settings) (c d : Channel) (formula : String) :
    (s.setFormula c formula).formula d = if c = d then formula else s.formula d := by
  cases c <;> cases d <;> rfl

/-- The variant that the settings select. -/
def filterVariant (s : Settings) : Variant :=
  match s.variant with
  | .basic => .basic
  | .extended => .extended
  | .multiSample => .multiSample s.samples.toNat

/-- What is wrong with the length of a channel's formula, if anything is. -/
def oversized? (s : Settings) (c : Channel) : Option SettingsError :=
  let size := (s.formula c).utf8ByteSize
  if maxFormulaSize < size then some (.formulaTooLong c size) else none

/-- The number of samples and the lengths of the formulas are within their limits. -/
def validate (s : Settings) : Except SettingsError Unit :=
  if s.variant = .multiSample && (s.samples < minSamples || maxSamples < s.samples) then
    .error (.invalidSampleCount s.samples)
  else match s.filterVariant.channels.findSome? s.oversized? with
    | some error => .error error
    | none => .ok ()

end Settings

end PenFilter
