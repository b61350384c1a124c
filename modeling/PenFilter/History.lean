import PenFilter.Report

/-! # What a filter remembers

`History` holds the last raw value of every measurement, the last computed values, and the
latest raw positions in a `SampleRing`, a buffer of fixed capacity that overwrites its oldest
entry.  `SampleRing.toList` is the ring read from its newest entry on. -/

namespace PenFilter

/-- The last raw value of every measurement, zero before the first. -/
structure RawSample where
  position : Vec2 := .zero
  pressure : UInt32 := 0
  tilt : Vec2 := .zero
  hoverDistance : UInt32 := 0
deriving DecidableEq

/-- The last computed values, before they are rounded for the report. -/
structure ComputedSample where
  x : Double := .zero
  y : Double := .zero
  pressure : Double := .zero
deriving DecidableEq

/-- Positions in a buffer of fixed size; the newest is at `head`, older ones follow it around
the end of the buffer. -/
structure SampleRing where
  slots : Array Vec2
  head : Nat
  /-- how many slots have been written -/
  size : Nat
deriving DecidableEq

namespace SampleRing

/-- A ring of zeros. -/
def ofCapacity (n : Nat) : SampleRing := ⟨Array.replicate n .zero, 0, 0⟩

def capacity (r : SampleRing) : Nat := r.slots.size

def isEmpty (r : SampleRing) : Bool := r.size == 0

def isFull (r : SampleRing) : Bool := r.size == r.capacity

/-- The ring with a newer entry in place of its oldest slot; a ring without slots stays. -/
def push (r : SampleRing) (v : Vec2) : SampleRing :=
  if r.capacity = 0 then r else
    let head := (r.head + r.capacity - 1) % r.capacity
    ⟨r.slots.setIfInBounds head v, head, min (r.size + 1) r.capacity⟩

/-- The entry `i` pushes ago; what has not been written yet is zero. -/
def get? (r : SampleRing) (i : Nat) : Option Vec2 :=
  if i < r.capacity then r.slots[(r.head + i) % r.capacity]? else none

/-- The ring of the same capacity with zeros only. -/
def clear (r : SampleRing) : SampleRing := ofCapacity r.capacity

/-- All slots, the newest first. -/
def toList (r : SampleRing) : List Vec2 := (List.range r.capacity).filterMap r.get?

end SampleRing

structure History where
  lastRaw : RawSample := {}
  lastComputed : ComputedSample := {}
  samples : SampleRing
deriving DecidableEq

namespace History

/-- No memory, with room for `n` positions. -/
def ofCapacity (n : Nat) : History := { samples := .ofCapacity n }

/-- The memory after a report and the values computed for it.  A measurement that the report
lacks keeps its last value. -/
def update (h : History) (raw : Report) (computed : ComputedSample) : History where
  lastRaw :=
    { position := raw.position.getD h.lastRaw.position
      pressure := raw.pressure.getD h.lastRaw.pressure
      tilt := raw.tilt.getD h.lastRaw.tilt
      hoverDistance := raw.hoverDistance.getD h.lastRaw.hoverDistance }
  lastComputed := computed
  samples := match raw.position with
    | some v => h.samples.push v
    | none => h.samples

/-- No memory, with the same room for positions. -/
def reset (h : History) : History := { samples := h.samples.clear }

end History

end PenFilter
