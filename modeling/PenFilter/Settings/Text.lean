import PenFilter.Report.Json
import PenFilter.Settings
import PenFilter.Text.Pieces
import PenFilter.Yaml.Reader

/-! # Settings and tablets as texts

Settings are read from JSON or YAML and written as JSON.  What is left out has its default.
`Settings.ofFile` chooses the reader by the suffix of the file's name.

Files are read with `Libraries`, which say in their own words what is wrong with a text. -/

namespace PenFilter

/-- The fields of settings in order. -/
def Settings.fieldNames : List String :=
  ["variant", "x", "y", "pressure", "tilt_x", "tilt_y", "samples"]

namespace VariantKind

/-- The name of a variant, or an object with the name as its only key and null as its value. -/
def ofJson? : Json → Option VariantKind
  | .string (some s) => ofName? s
  | .object [(some s, .null)] => ofName? s
  | _ => none

def ofYaml? (v : Yaml) : Option VariantKind := v.toText?.bind ofName?

end VariantKind

/-- The number of samples that JSON or YAML may give. -/
def sampleBound : Nat := UInt64.size

namespace Settings

def ofJson? (v : Json) : Option Settings := do
  let text (c : Channel) := Json.withDefault? c.identity Json.toText?
  match ← v.fields? fieldNames with
  | [variant, x, y, pressure, tiltX, tiltY, samples] =>
    some
      { variant := ← Json.withDefault? .basic VariantKind.ofJson? variant
        x := ← text .x x
        y := ← text .y y
        pressure := ← text .pressure pressure
        tiltX := ← text .tiltX tiltX
        tiltY := ← text .tiltY tiltY
        samples := .ofNat (← Json.withDefault? 1 (Json.toNat? sampleBound) samples) }
  | _ => none

def ofYaml? (v : Option Yaml) : Option Settings := do
  let text (c : Channel) := Yaml.withDefault? c.identity Yaml.toText?
  match ← Yaml.fields? fieldNames v with
  | [variant, x, y, pressure, tiltX, tiltY, samples] =>
    some
      { variant := ← Yaml.withDefault? .basic VariantKind.ofYaml? variant
        x := ← text .x x
        y := ← text .y y
        pressure := ← text .pressure pressure
        tiltX := ← text .tiltX tiltX
        tiltY := ← text .tiltY tiltY
        samples := .ofNat (← Yaml.withDefault? 1 (Yaml.toNat? sampleBound) samples) }
  | _ => none

/-- The settings that a JSON text spells. -/
def readJson? (s : String) : Option Settings := (Json.read? s).bind ofJson?

/-- The settings that a YAML text spells. -/
def readYaml? (s : String) : Option Settings := (Yaml.read? s).bind ofYaml?

def toJson (s : Settings) : Json :=
  .ofMembers
    [("variant", .ofString s.variant.name), ("x", .ofString s.x), ("y", .ofString s.y),
      ("pressure", .ofString s.pressure), ("tilt_x", .ofString s.tiltX),
      ("tilt_y", .ofString s.tiltY), ("samples", .ofNat s.samples.toNat)]

end Settings

namespace Tablet

def ofYaml? (v : Option Yaml) : Option Tablet := do
  match ← Yaml.fields? ["max_x", "max_y", "max_pressure"] v with
  | [some maxX, some maxY, maxPressure] =>
    some
      { maxX := ← maxX.toSingle?
        maxY := ← maxY.toSingle?
        maxPressure := .ofNat
          (← Yaml.withDefault? 0 (Yaml.toNat? UInt32.size) maxPressure) }
  | _ => none

/-- The tablet that a YAML text spells. -/
def readYaml? (s : String) : Option Tablet := (Yaml.read? s).bind ofYaml?

end Tablet

/-! ### Libraries -/

/-- The libraries that read YAML and JSON.  What a YAML text spells is up to them; what a JSON text
spells is not, but the words for what is wrong with one are.  Whatever reads a file takes this as a
parameter. -/
class Libraries where
  /-- the settings that a YAML text spells, or what is wrong with the text -/
  settingsOfYaml : String → Except String Settings
  /-- the tablet that a YAML text spells, or what is wrong with the text -/
  tabletOfYaml : String → Except String Tablet
  /-- what is wrong with a JSON text that spells no settings -/
  settingsFault : String → String
  /-- what is wrong with a JSON text that spells no tablet -/
  tabletFault : String → String
  /-- what is wrong with a JSON text that spells no report -/
  reportFault : String → String

/-- The readers that are built in.  They know YAML without anchors, aliases, tags and directives. -/
instance Libraries.builtIn : Libraries where
  settingsOfYaml s := (Settings.readYaml? s).elim (.error "not settings") .ok
  tabletOfYaml s := (Tablet.readYaml? s).elim (.error "not a tablet") .ok
  settingsFault _ := "not settings"
  tabletFault _ := "not a tablet"
  reportFault _ := "not a report"

namespace Settings

variable [Libraries]

def readJson (s : String) : Except SettingsError Settings :=
  match readJson? s with
  | some settings => .ok settings
  | none => .error (.notJson (Libraries.settingsFault s))

def readYaml (s : String) : Except SettingsError Settings :=
  (Libraries.settingsOfYaml s).mapError .notYaml

end Settings

/-! ### Files -/

/-- The contents of files by name, or what the system says about one that cannot be read. -/
abbrev Files := String → Except String String

/-- The last part of a path; parts that are empty or a single point do not count. -/
def fileName (path : String) : List Char :=
  (((pieces '/' path.toList).filter fun part => !part.isEmpty && part != ['.']).getLast?).getD []

/-- What follows the last point of a file's name, in lower case.  A point at the start of the
name does not count, nor does a name without one. -/
def fileSuffix (path : String) : String :=
  let name := fileName path
  let suffix := (name.reverse.takeWhile (· != '.')).reverse
  if name == ['.', '.'] || name.length ≤ suffix.length + 1 then ""
  else String.ofList (suffix.map Char.toLower)

/-- The settings in a file, which is read only when its suffix is known. -/
def Settings.ofFile [Libraries] (files : Files) (path : String) :
    Except SettingsError Settings :=
  let read (reader : String → Except SettingsError Settings) :=
    match files path with
    | .error reason => .error (.unreadable reason)
    | .ok text => reader text
  let suffix := fileSuffix path
  if suffix = "yaml" || suffix = "yml" then read readYaml
  else if suffix = "json" then read readJson
  else .error (.unsupportedFormat suffix)

end PenFilter
