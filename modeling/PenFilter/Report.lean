import PenFilter.Number.Binary

/-! # Pen reports

A report holds what the device measured at one moment; each of the four kinds of measurement
may be missing.  `Tablet` holds the limits of the device. -/

namespace PenFilter

/-- A pair of device coordinates. -/
structure Vec2 where
  x : Single
  y : Single
deriving DecidableEq

def Vec2.zero : Vec2 := ⟨.zero, .zero⟩

/-- What a report may carry. -/
inductive Capability where
  | position | pressure | tilt | hoverDistance
deriving DecidableEq, Repr

def Capability.name : Capability → String
  | position => "Position"
  | pressure => "Pressure"
  | tilt => "Tilt"
  | hoverDistance => "HoverDistance"

structure Report where
  position : Option Vec2 := none
  pressure : Option UInt32 := none
  tilt : Option Vec2 := none
  hoverDistance : Option UInt32 := none
deriving DecidableEq

/-- Whether a report carries a measurement. -/
def Report.has (r : Report) : Capability → Bool
  | .position => r.position.isSome
  | .pressure => r.pressure.isSome
  | .tilt => r.tilt.isSome
  | .hoverDistance => r.hoverDistance.isSome

/-- The limits of a device. -/
structure Tablet where
  maxX : Single
  maxY : Single
  maxPressure : UInt32 := 0
deriving DecidableEq

end PenFilter
