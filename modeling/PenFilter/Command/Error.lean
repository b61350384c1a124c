import PenFilter.Settings.Text

/-! # How a command fails

A `CommandError` has a message, an exit code, a name for scripts and a list of causes, the
nearest first. -/

namespace PenFilter

inductive CommandError where
  | settings (error : SettingsError)
  | formula (error : FormulaError)
  | invalidBinding (text : String)
  | unknownVariable (name : String) (variant : Variant)
  | channelsFellBack (count : Nat)
  /-- the line is counted from one -/
  | invalidReport (line : Nat) (reason : String)
  | unsupportedTabletFormat (suffix : String)
  | unreadableTablet (reason : String)
  | tabletNotJson (reason : String)
  | tabletNotYaml (reason : String)
  | unreadableInput (reason : String)
deriving DecidableEq

/-- What lies behind an error of a formula. -/
def FormulaError.cause : FormulaError → String
  | parse e => e.message
  | compile e => e.message

/-- What lies behind an error of settings. -/
def SettingsError.causes : SettingsError → List String
  | unreadable reason | notYaml reason | notJson reason => [reason]
  | invalidSampleCount _ | formulaTooLong .. | fallbackFailed .. | unsupportedFormat _ => []

namespace CommandError

def message : CommandError → String
  | settings e => "Settings error: " ++ e.message
  | formula e => "Formula error: " ++ e.message
  | invalidBinding s => "Invalid variable binding '" ++ s ++ "', expected name=value"
  | unknownVariable s v => "Unknown variable '" ++ s ++ "' for the " ++ v.text ++ " variant"
  | channelsFellBack n => Decimal.text n ++ " channel(s) fell back to the identity formula"
  | invalidReport n _ => "Invalid report on line " ++ Decimal.text n
  | unsupportedTabletFormat s =>
    "Unsupported tablet spec format '" ++ s ++ "', expected .json, .yaml or .yml"
  | unreadableTablet reason => "IO error: " ++ reason
  | tabletNotJson reason => "JSON error: " ++ reason
  | tabletNotYaml reason => "YAML error: " ++ reason
  | unreadableInput reason => reason

/-- The name of the kind of error. -/
def name : CommandError → String
  | settings _ => "Settings"
  | formula _ => "Formula"
  | invalidBinding _ => "InvalidBinding"
  | unknownVariable .. => "UnknownVariable"
  | channelsFellBack _ => "ChannelsFellBack"
  | invalidReport .. => "InvalidReport"
  | unsupportedTabletFormat _ => "UnsupportedSpecFormat"
  | unreadableTablet _ => "Io"
  | tabletNotJson _ => "Json"
  | tabletNotYaml _ => "Yaml"
  | unreadableInput _ => "Unknown"

def exitCode : CommandError → Nat
  | unreadableTablet _ | unreadableInput _ => 1
  | formula _ | invalidBinding _ | unknownVariable .. => 2
  | settings _ | unsupportedTabletFormat _ => 3
  | channelsFellBack _ => 4
  | invalidReport .. | tabletNotJson _ | tabletNotYaml _ => 5

/-- What led to the error, the nearest cause first. -/
def causes : CommandError → List String
  | settings e => e.message :: e.causes
  | formula e => [e.message, e.cause]
  | invalidReport _ reason | unreadableTablet reason | tabletNotJson reason
  | tabletNotYaml reason => [reason]
  | invalidBinding _ | unknownVariable .. | channelsFellBack _ | unsupportedTabletFormat _
  | unreadableInput _ => []

/-- The error for people. -/
def text (e : CommandError) : String :=
  "Error: " ++ e.message ++ "\n" ++
    String.join (e.causes.map fun cause => "  Caused by: " ++ cause ++ "\n")

/-- The error for scripts. -/
def toJson (e : CommandError) : Json :=
  .ofMembers
    [("error", .ofMembers
        [("causes", .array (e.causes.map .ofString)), ("message", .ofString e.message),
          ("type", .ofString e.name)]),
      ("success", .bool false)]

end CommandError

end PenFilter
