import PenFilter.Json.Fields
import PenFilter.Json.Number
import PenFilter.Json.Reader
import PenFilter.Report
import PenFilter.Text.Blank

/-! # Reports and tablets in JSON

`Report.toJson` writes the measurements that a report carries; `Report.ofJson?` reads them
back.  A coordinate that is not finite is a string, and a string may spell any coordinate. -/

namespace PenFilter

namespace Vec2

def toJson (v : Vec2) : Json := .ofMembers [("x", .ofBinary v.x), ("y", .ofBinary v.y)]

/-- One coordinate: a number, or a numeral in a string. -/
def coordinate? : Json → Option Single
  | .string (some s) => Binary.read? _ (trimmed s.toList)
  | v => v.toSingle?

def ofJson? (v : Json) : Option Vec2 := do
  match ← v.fields? ["x", "y"] with
  | [some x, some y] => some ⟨← coordinate? x, ← coordinate? y⟩
  | _ => none

end Vec2

/-- A whole number of 32 bits. -/
def Json.toUInt32? (v : Json) : Option UInt32 := (v.toNat? UInt32.size).map UInt32.ofNat

namespace Report

def toJson (r : Report) : Json :=
  .ofMembers <| [
    r.position.map fun v => ("position", v.toJson),
    r.pressure.map fun n => ("pressure", .ofNat n.toNat),
    r.tilt.map fun v => ("tilt", v.toJson),
    r.hoverDistance.map fun n => ("hover_distance", .ofNat n.toNat)].filterMap id

def ofJson? (v : Json) : Option Report := do
  match ← v.fields? ["position", "pressure", "tilt", "hover_distance"] with
  | [position, pressure, tilt, hoverDistance] =>
    some
      { position := ← Json.optional? Vec2.ofJson? position
        pressure := ← Json.optional? Json.toUInt32? pressure
        tilt := ← Json.optional? Vec2.ofJson? tilt
        hoverDistance := ← Json.optional? Json.toUInt32? hoverDistance }
  | _ => none

/-- The text of a report on one line. -/
def text (r : Report) : String := r.toJson.compact

/-- The report that a text spells. -/
def read? (s : String) : Option Report := (Json.read? s).bind ofJson?

end Report

namespace Tablet

def ofJson? (v : Json) : Option Tablet := do
  match ← v.fields? ["max_x", "max_y", "max_pressure"] with
  | [some maxX, some maxY, maxPressure] =>
    some
      { maxX := ← maxX.toSingle?
        maxY := ← maxY.toSingle?
        maxPressure := ← Json.withDefault? 0 Json.toUInt32? maxPressure }
  | _ => none

/-- The tablet that a JSON text spells. -/
def readJson? (s : String) : Option Tablet := (Json.read? s).bind ofJson?

end Tablet

end PenFilter
