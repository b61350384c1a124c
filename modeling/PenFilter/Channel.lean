import PenFilter.Report

/-! # Channels

A channel is one number of a report that a formula may replace.  `Channel.write` replaces it;
it never adds a measurement that the report lacks (`Channel.has_write`). -/

namespace PenFilter

inductive Channel where
  | x | y | pressure | tiltX | tiltY
deriving DecidableEq, Repr

namespace Channel

/-- All channels in the order in which formulas run. -/
def all : List Channel := [x, y, pressure, tiltX, tiltY]

/-- The name in settings and answers. -/
def name : Channel → String
  | x => "x"
  | y => "y"
  | pressure => "pressure"
  | tiltX => "tilt_x"
  | tiltY => "tilt_y"

/-- The name for people. -/
def label : Channel → String
  | x => "X"
  | y => "Y"
  | pressure => "Pressure"
  | tiltX => "Tilt X"
  | tiltY => "Tilt Y"

/-- The name in structured descriptions. -/
def caption : Channel → String
  | x => "X"
  | y => "Y"
  | pressure => "Pressure"
  | tiltX => "TiltX"
  | tiltY => "TiltY"

/-- The formula that leaves the channel as it is. -/
def identity : Channel → String
  | x => "x"
  | y => "y"
  | pressure => "p"
  | tiltX => "tx"
  | tiltY => "ty"

/-- The measurement that the channel is a part of. -/
def capability : Channel → Capability
  | x | y => .position
  | pressure => .pressure
  | tiltX | tiltY => .tilt

/-- The position of a channel in the order of all channels. -/
def index : Channel → Nat
  | x => 0
  | y => 1
  | pressure => 2
  | tiltX => 3
  | tiltY => 4

def ofName? (s : String) : Option Channel := all.find? (·.name == s)

/-- The report with a new value in the channel.  Coordinates are rounded to single precision.
Pressure becomes the nearest whole number of 32 bits, and stays when the value is not
finite. -/
def write (c : Channel) (r : Report) (value : Double) : Report :=
  match c with
  | x => { r with position := r.position.map ({ · with x := value.toSingle }) }
  | y => { r with position := r.position.map ({ · with y := value.toSingle }) }
  | pressure =>
    { r with pressure := r.pressure.map fun p =>
        if value.isFinite then value.nearestUInt32 else p }
  | tiltX => { r with tilt := r.tilt.map ({ · with x := value.toSingle }) }
  | tiltY => { r with tilt := r.tilt.map ({ · with y := value.toSingle }) }

theorem has_write (c : Channel) (r : Report) (value : Double) (k : Capability) :
    (c.write r value).has k = r.has k := by
  cases c <;> cases k <;> simp [write, Report.has]

end Channel

end PenFilter
