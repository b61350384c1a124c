import PenFilter.Channel
import PenFilter.Formula.Schema
import PenFilter.History

/-! # Variants

A `Variant` chooses the variables that formulas can read and the channels that they drive.  Its
schema lists the names of the variables, and `Variant.gather` their values while a report is
processed, in the same order.  No prefix of a name is for the report, `l` for the one before it,
`m` for the limits of the tablet, `c` for the values computed before; a number behind `x` or `y`
is the age of a position in the memory. -/

namespace PenFilter

/-- Which variables and channels a filter has. -/
inductive Variant where
  | basic
  | extended
  | multiSample (samples : Nat)
deriving DecidableEq, Repr

namespace Variant

def basicNames : List String := ["x", "y", "lx", "ly", "mx", "my"]

def extendedNames : List String :=
  ["x", "y", "lx", "ly", "mx", "my", "p", "lp", "mp", "tx", "ty", "ltx", "lty", "d", "ld",
    "cx", "cy", "cp"]

/-- The names of the variables in the order of their slots. -/
def names : Variant → List String
  | basic => basicNames
  | extended => extendedNames
  | multiSample n =>
    ["x", "y", "mx", "my"] ++
      (List.range n).flatMap fun age => ["x" ++ Decimal.text age, "y" ++ Decimal.text age]

def schema (v : Variant) : Schema := .ofList v.names

/-- The channels that formulas drive, in the order in which they run. -/
def channels : Variant → List Channel
  | extended => Channel.all
  | basic | multiSample _ => [.x, .y]

def owns (v : Variant) (c : Channel) : Bool := v.channels.contains c

/-- How many positions the memory needs. -/
def sampleCapacity : Variant → Nat
  | multiSample n => n
  | basic | extended => 0

/-- How many variables there are. -/
def arity : Variant → Nat
  | basic => basicNames.length
  | extended => extendedNames.length
  | multiSample n => 4 + 2 * n

def text : Variant → String
  | basic => "basic"
  | extended => "extended"
  | multiSample n => "multi_sample(" ++ Decimal.text n ++ ")"

/-- The values of the variables by slot, in a buffer whose former content is dropped.
Measurements that the report lacks are zero, and so are positions that the memory has no room
for. -/
def gather (v : Variant) (raw : Report) (h : History) (tablet : Tablet)
    (buffer : Array Double) : Array Double :=
  let values := buffer.shrink 0
  let position := raw.position.getD .zero
  let last := h.lastRaw
  match v with
  | basic =>
    values ++ [position.x.toDouble, position.y.toDouble,
      last.position.x.toDouble, last.position.y.toDouble,
      tablet.maxX.toDouble, tablet.maxY.toDouble]
  | extended =>
    let tilt := raw.tilt.getD .zero
    let computed := h.lastComputed
    values ++ [position.x.toDouble, position.y.toDouble,
      last.position.x.toDouble, last.position.y.toDouble,
      tablet.maxX.toDouble, tablet.maxY.toDouble,
      .ofNat (raw.pressure.getD 0).toNat, .ofNat last.pressure.toNat,
      .ofNat tablet.maxPressure.toNat,
      tilt.x.toDouble, tilt.y.toDouble, last.tilt.x.toDouble, last.tilt.y.toDouble,
      .ofNat (raw.hoverDistance.getD 0).toNat, .ofNat last.hoverDistance.toNat,
      computed.x, computed.y, computed.pressure]
  | multiSample n =>
    let limits := values ++ [position.x.toDouble, position.y.toDouble,
      tablet.maxX.toDouble, tablet.maxY.toDouble]
    (List.range n).foldl (fun values age =>
      let sample := (h.samples.get? age).getD .zero
      (values.push sample.x.toDouble).push sample.y.toDouble) limits

end Variant

end PenFilter
