import Mathlib.Data.List.Nodup
import PenFilter.Variant

/-! # Variables and their meaning

A `Variable` is something a formula can read while a report is processed: `Variable.name` is what
formulas call it and `Variable.value` what it stands for.  `Means` says the same by the prefix of a
name alone.  No two variables have one name (`Variable.name_injective`), so that a name has one
meaning (`Means.unique`). -/

namespace PenFilter

inductive Variable where
  | x | y | lastX | lastY | maxX | maxY
  | pressure | lastPressure | maxPressure
  | tiltX | tiltY | lastTiltX | lastTiltY
  | hoverDistance | lastHoverDistance
  | computedX | computedY | computedPressure
  /-- the horizontal position so many reports ago, zero for the latest -/
  | sampleX (age : Nat)
  /-- the vertical position so many reports ago, zero for the latest -/
  | sampleY (age : Nat)
deriving DecidableEq, Repr

namespace Variable

def name : Variable → String
  | x => "x"
  | y => "y"
  | lastX => "lx"
  | lastY => "ly"
  | maxX => "mx"
  | maxY => "my"
  | pressure => "p"
  | lastPressure => "lp"
  | maxPressure => "mp"
  | tiltX => "tx"
  | tiltY => "ty"
  | lastTiltX => "ltx"
  | lastTiltY => "lty"
  | hoverDistance => "d"
  | lastHoverDistance => "ld"
  | computedX => "cx"
  | computedY => "cy"
  | computedPressure => "cp"
  | sampleX age => "x" ++ Decimal.text age
  | sampleY age => "y" ++ Decimal.text age

/-- The value while a report is processed.  Measurements that the report lacks are zero, and
so are positions that the memory has no room for. -/
def value (raw : Report) (h : History) (tablet : Tablet) : Variable → Double
  | x => (raw.position.getD .zero).x.toDouble
  | y => (raw.position.getD .zero).y.toDouble
  | lastX => h.lastRaw.position.x.toDouble
  | lastY => h.lastRaw.position.y.toDouble
  | maxX => tablet.maxX.toDouble
  | maxY => tablet.maxY.toDouble
  | pressure => .ofNat (raw.pressure.getD 0).toNat
  | lastPressure => .ofNat h.lastRaw.pressure.toNat
  | maxPressure => .ofNat tablet.maxPressure.toNat
  | tiltX => (raw.tilt.getD .zero).x.toDouble
  | tiltY => (raw.tilt.getD .zero).y.toDouble
  | lastTiltX => h.lastRaw.tilt.x.toDouble
  | lastTiltY => h.lastRaw.tilt.y.toDouble
  | hoverDistance => .ofNat (raw.hoverDistance.getD 0).toNat
  | lastHoverDistance => .ofNat h.lastRaw.hoverDistance.toNat
  | computedX => h.lastComputed.x
  | computedY => h.lastComputed.y
  | computedPressure => h.lastComputed.pressure
  | sampleX age => ((h.samples.get? age).getD .zero).x.toDouble
  | sampleY age => ((h.samples.get? age).getD .zero).y.toDouble

end Variable

/-- The variables of a variant in the order of their slots. -/
def Variant.inputs : Variant → List Variable
  | basic => [.x, .y, .lastX, .lastY, .maxX, .maxY]
  | extended =>
    [.x, .y, .lastX, .lastY, .maxX, .maxY, .pressure, .lastPressure, .maxPressure,
      .tiltX, .tiltY, .lastTiltX, .lastTiltY, .hoverDistance, .lastHoverDistance,
      .computedX, .computedY, .computedPressure]
  | multiSample n =>
    [.x, .y, .maxX, .maxY] ++ (List.range n).flatMap fun i => [.sampleX i, .sampleY i]

/-! ### What names mean -/

/-- A number that the device measures. -/
inductive Quantity where
  | x | y | pressure | tiltX | tiltY | hoverDistance

namespace Quantity

def letters : Quantity → String
  | x => "x"
  | y => "y"
  | pressure => "p"
  | tiltX => "tx"
  | tiltY => "ty"
  | hoverDistance => "d"

/-- The number in some raw values. -/
def of (s : RawSample) : Quantity → Double
  | x => s.position.x.toDouble
  | y => s.position.y.toDouble
  | pressure => .ofNat s.pressure.toNat
  | tiltX => s.tilt.x.toDouble
  | tiltY => s.tilt.y.toDouble
  | hoverDistance => .ofNat s.hoverDistance.toNat

end Quantity

/-- The raw values of a report, zero for what it lacks. -/
def Report.sample (r : Report) : RawSample where
  position := r.position.getD .zero
  pressure := r.pressure.getD 0
  tilt := r.tilt.getD .zero
  hoverDistance := r.hoverDistance.getD 0

/-- The meaning of a name while a report is processed.  No prefix is for the report, `l` for the
last raw values, `m` for the limits of the tablet and `c` for the last computed values; a number
behind `x` or `y` is the age of a position in the memory, which is zero where there is no room
for it. -/
inductive Means (raw : Report) (h : History) (tablet : Tablet) : String → Double → Prop
  | current (q : Quantity) : Means raw h tablet q.letters (q.of raw.sample)
  | last (q : Quantity) : Means raw h tablet ("l" ++ q.letters) (q.of h.lastRaw)
  | maxX : Means raw h tablet "mx" tablet.maxX.toDouble
  | maxY : Means raw h tablet "my" tablet.maxY.toDouble
  | maxPressure : Means raw h tablet "mp" (.ofNat tablet.maxPressure.toNat)
  | computedX : Means raw h tablet "cx" h.lastComputed.x
  | computedY : Means raw h tablet "cy" h.lastComputed.y
  | computedPressure : Means raw h tablet "cp" h.lastComputed.pressure
  | sampleX (age : Nat) :
    Means raw h tablet ("x" ++ Decimal.text age) ((h.samples.get? age).getD .zero).x.toDouble
  | sampleY (age : Nat) :
    Means raw h tablet ("y" ++ Decimal.text age) ((h.samples.get? age).getD .zero).y.toDouble

/-! ### Names tell variables apart -/

theorem Decimal.text_inj {m n : Nat} : Decimal.text m = Decimal.text n ↔ m = n := by
  constructor
  · intro h
    rw [← ofDigits_digits m, ← ofDigits_digits n, String.ofList_injective h]
  · rintro rfl
    rfl

namespace Variable

theorem mem_extended_or (v : Variable) :
    v ∈ Variant.extended.inputs ∨ (∃ age, v = .sampleX age) ∨ ∃ age, v = .sampleY age := by
  cases v with
  | sampleX age => exact .inr (.inl ⟨age, rfl⟩)
  | sampleY age => exact .inr (.inr ⟨age, rfl⟩)
  | _ => exact .inl (by decide)

theorem no_digit_of_mem_extended :
    ∀ v ∈ Variant.extended.inputs, v.name.toList.any Char.isDigit = false := by
  decide

theorem digit_append_text (letter : String) (age : Nat) :
    (letter ++ Decimal.text age).toList.any Char.isDigit = true := by
  obtain ⟨c, cs, hdigits⟩ := List.exists_cons_of_ne_nil (Decimal.digits_ne_nil age)
  have hc : c.isDigit = true :=
    Nat.isDigit_of_mem_toDigits (b := 10) (n := age) (by decide) (by decide)
      (by rw [← Decimal.digits, hdigits]; exact List.mem_cons_self)
  rw [String.toList_append, Decimal.text, String.toList_ofList, hdigits]
  simp [hc]

/-- No two variables have one name. -/
theorem name_injective : Function.Injective name := by
  have hfixed : (Variant.extended.inputs.map name).Nodup := by decide
  have hsample : ∀ v ∈ Variant.extended.inputs, ∀ letter age,
      v.name ≠ letter ++ Decimal.text age := by
    intro v hv letter age h
    have hnone := no_digit_of_mem_extended v hv
    rw [h, digit_append_text] at hnone
    cases hnone
  have hletters : ∀ m n, "x" ++ Decimal.text m ≠ "y" ++ Decimal.text n := by
    intro m n h
    have hlists := congrArg String.toList h
    simp at hlists
  intro v w h
  rcases v.mem_extended_or with hv | ⟨m, rfl⟩ | ⟨m, rfl⟩ <;>
    rcases w.mem_extended_or with hw | ⟨n, rfl⟩ | ⟨n, rfl⟩
  · exact List.inj_on_of_nodup_map hfixed hv hw h
  · exact absurd h (hsample v hv "x" n)
  · exact absurd h (hsample v hv "y" n)
  · exact absurd h.symm (hsample w hw "x" m)
  · rw [Decimal.text_inj.mp ((String.append_right_inj _).mp h)]
  · exact absurd h (hletters m n)
  · exact absurd h.symm (hsample w hw "y" m)
  · exact absurd h.symm (hletters n m)
  · rw [Decimal.text_inj.mp ((String.append_right_inj _).mp h)]

end Variable

section Meaning

variable {raw : Report} {h : History} {tablet : Tablet} {name : String} {value : Double}

theorem means_iff :
    Means raw h tablet name value ↔
      ∃ v : Variable, v.name = name ∧ v.value raw h tablet = value := by
  constructor
  · intro hmeans
    cases hmeans with
    | current q =>
        cases q with
        | x => exact ⟨.x, rfl, rfl⟩
        | y => exact ⟨.y, rfl, rfl⟩
        | pressure => exact ⟨.pressure, rfl, rfl⟩
        | tiltX => exact ⟨.tiltX, rfl, rfl⟩
        | tiltY => exact ⟨.tiltY, rfl, rfl⟩
        | hoverDistance => exact ⟨.hoverDistance, rfl, rfl⟩
    | last q =>
        cases q with
        | x => exact ⟨.lastX, rfl, rfl⟩
        | y => exact ⟨.lastY, rfl, rfl⟩
        | pressure => exact ⟨.lastPressure, rfl, rfl⟩
        | tiltX => exact ⟨.lastTiltX, rfl, rfl⟩
        | tiltY => exact ⟨.lastTiltY, rfl, rfl⟩
        | hoverDistance => exact ⟨.lastHoverDistance, rfl, rfl⟩
    | maxX => exact ⟨.maxX, rfl, rfl⟩
    | maxY => exact ⟨.maxY, rfl, rfl⟩
    | maxPressure => exact ⟨.maxPressure, rfl, rfl⟩
    | computedX => exact ⟨.computedX, rfl, rfl⟩
    | computedY => exact ⟨.computedY, rfl, rfl⟩
    | computedPressure => exact ⟨.computedPressure, rfl, rfl⟩
    | sampleX age => exact ⟨.sampleX age, rfl, rfl⟩
    | sampleY age => exact ⟨.sampleY age, rfl, rfl⟩
  · rintro ⟨v, rfl, rfl⟩
    cases v with
    | x => exact .current .x
    | y => exact .current .y
    | pressure => exact .current .pressure
    | tiltX => exact .current .tiltX
    | tiltY => exact .current .tiltY
    | hoverDistance => exact .current .hoverDistance
    | lastX => exact .last .x
    | lastY => exact .last .y
    | lastPressure => exact .last .pressure
    | lastTiltX => exact .last .tiltX
    | lastTiltY => exact .last .tiltY
    | lastHoverDistance => exact .last .hoverDistance
    | maxX => exact .maxX
    | maxY => exact .maxY
    | maxPressure => exact .maxPressure
    | computedX => exact .computedX
    | computedY => exact .computedY
    | computedPressure => exact .computedPressure
    | sampleX age => exact .sampleX age
    | sampleY age => exact .sampleY age

theorem Means.unique {other : Double} (hvalue : Means raw h tablet name value)
    (hother : Means raw h tablet name other) : value = other := by
  obtain ⟨v, rfl, rfl⟩ := means_iff.mp hvalue
  obtain ⟨w, hname, rfl⟩ := means_iff.mp hother
  rw [Variable.name_injective hname]

end Meaning

end PenFilter
