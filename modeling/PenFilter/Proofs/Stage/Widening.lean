import PenFilter.Proofs.Stage.Forgetting
import PenFilter.Proofs.Stage.Position

/-! # From the basic variant to the extended one

The schema of the extended variant extends that of the basic one (`Variant.extends_basic`).  A
formula that the basic variant accepts is therefore accepted by the extended one, and as the same
tree, in which all variables stand for positions.  Two new stages that are given such formulas for
the two coordinates, one for either variant, are abreast (`Stage.abreast_widened`): whatever the
extended one does for pressure and tilt, both pass on the same positions
(`Stage.widening_keeps_positions`). -/

namespace PenFilter

theorem Variant.extends_basic : Variant.extended.schema.Extends Variant.basic.schema where
  names := by
    rw [names_schema, names_schema]
    decide
  pi := by
    rw [names_schema, names_schema]
    decide
  e := by
    rw [names_schema, names_schema]
    decide

theorem Program.ofFormula_of_extends {longer shorter : Schema} (hext : longer.Extends shorter)
    {source : String} {p : Program} (h : Program.ofFormula shorter source = .ok p) :
    Program.ofFormula longer source = .ok { p with arity := longer.size } := by
  obtain ⟨e, hparse, rfl⟩ := ofFormula_eq_ok_iff.mp h
  exact ofFormula_eq_ok_iff.mpr ⟨e, Expr.parse_of_extends hext hparse, rfl⟩

namespace Settings

/-- The second settings are for the extended variant and have the formulas for the two coordinates
from the first ones, which are for the basic variant and accepted by it. -/
structure Widens (a b : Settings) : Prop where
  basic : a.variant = .basic
  extended : b.variant = .extended
  formula : ∀ c : Channel, c.capability = .position → b.formula c = a.formula c
  accepted : ∀ c : Channel, c.capability = .position →
    ∃ p, Program.ofFormula Variant.basic.schema (a.formula c) = .ok p
  size : ∀ c, (b.formula c).utf8ByteSize ≤ maxFormulaSize

variable {a b : Settings}

theorem Widens.filterVariant_left (h : a.Widens b) : a.filterVariant = .basic := by
  rw [filterVariant, h.basic]

theorem Widens.filterVariant_right (h : a.Widens b) : b.filterVariant = .extended := by
  rw [filterVariant, h.extended]

theorem Widens.compile_left (h : a.Widens b) :
    ∃ filters, (FilterSet.compile a).2 = .ok filters := by
  have hcount : a.CountAllowed := by
    intro hv
    rw [h.basic] at hv
    cases hv
  refine FilterSet.exists_compile_iff.mpr ⟨hcount, fun c hc => ?_⟩
  have hposition : c.capability = .position := by
    rw [h.filterVariant_left] at hc
    rcases List.mem_pair.mp hc with rfl | rfl <;> rfl
  rw [← h.formula c hposition]
  exact h.size c

theorem Widens.compile_right (h : a.Widens b) :
    ∃ filters, (FilterSet.compile b).2 = .ok filters := by
  have hcount : b.CountAllowed := by
    intro hv
    rw [h.extended] at hv
    cases hv
  exact FilterSet.exists_compile_iff.mpr ⟨hcount, fun c _ => h.size c⟩

end Settings

theorem ChannelFilter.Serves.active_eq {schema : Schema} {s : Settings} {f : ChannelFilter}
    (h : f.Serves schema s) (hformula : ∃ p, Program.ofFormula schema f.formula = .ok p) :
    f.active = s.formula f.channel := by
  obtain ⟨p, hp⟩ := hformula
  rw [active, ((h.accepted p).mp hp).1, ← h.formula]
  rfl

/-- Filters for the basic variant and for the extended one run the same trees for the
coordinates. -/
theorem Settings.Widens.samePositions {a b : Settings} (h : a.Widens b)
    {filters others : FilterSet} (ha : (FilterSet.compile a).2 = .ok filters)
    (hb : (FilterSet.compile b).2 = .ok others) : filters.SamePositions others := by
  obtain ⟨hbasic, -, hserves, -⟩ := FilterSet.serves_of_compile ha
  obtain ⟨hextended, -, hserves', -⟩ := FilterSet.serves_of_compile hb
  rw [h.filterVariant_left] at hbasic hserves
  rw [h.filterVariant_right] at hextended hserves'
  intro f hf g hg hchannel hposition
  obtain ⟨p, hp⟩ := h.accepted f.channel hposition
  -- neither filter was replaced by an identity, so that both run the formula of the first settings
  have hactive : f.active = a.formula f.channel :=
    (hserves f hf).active_eq ⟨p, by rw [(hserves f hf).formula, hp]⟩
  have hformula : g.formula = a.formula f.channel := by
    rw [(hserves' g hg).formula, ← hchannel, h.formula f.channel hposition]
  have hactive' : g.active = a.formula f.channel := by
    rw [(hserves' g hg).active_eq ⟨_, hformula ▸ Program.ofFormula_of_extends
      Variant.extends_basic hp⟩, ← (hserves' g hg).formula, hformula]
  obtain ⟨e, hparse, -⟩ := Program.ofFormula_eq_ok_iff.mp hp
  rw [hbasic, hextended, hactive, hactive']
  exact ⟨e, hparse, Expr.parse_of_extends Variant.extends_basic hparse,
    (Expr.wellFormed_of_parse hparse).isPositional (by decide)⟩

namespace Stage

/-- The events besides settings tell the same of positions as themselves. -/
theorem Event.samePositions_self {e : Event} (h : e.settings? = none) : e.SamePositions e := by
  cases e with
  | configure settings => cases h
  | process raw => exact .process rfl
  | setTablet tablet => exact .setTablet ⟨rfl, rfl⟩
  | resetHistory => exact .resetHistory

theorem abreast_widened {a b : Settings} (h : a.Widens b) (tablet : Tablet) :
    ((ofTablet tablet).run [.configure a]).Abreast ((ofTablet tablet).run [.configure b]) := by
  obtain ⟨filters, ha⟩ := h.compile_left
  obtain ⟨others, hb⟩ := h.compile_right
  have hleft : ((ofTablet tablet).run [.configure a]).Compiled :=
    (compiled_ofTablet tablet).after (.configure a)
  have hright : ((ofTablet tablet).run [.configure b]).Compiled :=
    (compiled_ofTablet tablet).after (.configure b)
  rw [configure_ofTablet tablet ha] at hleft ⊢
  rw [configure_ofTablet tablet hb] at hright ⊢
  have hcapacity : filters.variant.sampleCapacity = others.variant.sampleCapacity := by
    rw [(FilterSet.serves_of_compile ha).1, (FilterSet.serves_of_compile hb).1,
      h.filterVariant_left, h.filterVariant_right]
    rfl
  exact
    { left := hleft
      right := hright
      extent := ⟨rfl, rfl⟩
      memory := ⟨rfl, congrArg SampleRing.ofCapacity hcapacity⟩
      filters := .some (h.samePositions ha hb) }

/-- **Going from the basic variant to the extended one keeps positions.**  A source that is
accepted for a schema is read as the same tree for every schema that extends it.  So take settings
for the basic variant that it accepts for both coordinates, and settings for the extended variant
with the same two formulas and any others, none of them too long.  Both can be installed in a new
stage, and from then on every sequence of reports, tablets and resets has the same positions passed
on for either of the two. -/
theorem widening_keeps_positions :
    (∀ longer shorter : Schema, longer.Extends shorter → ∀ source e,
      Expr.parse shorter source = .ok e → Expr.parse longer source = .ok e) ∧
    ∀ (a b : Settings), a.Widens b → ∀ tablet : Tablet,
      (∃ filters, ((ofTablet tablet).run [.configure a]).filters = some filters ∧
        filters.variant = .basic) ∧
      (∃ filters, ((ofTablet tablet).run [.configure b]).filters = some filters ∧
        filters.variant = .extended) ∧
      ∀ events : List Event, (∀ e ∈ events, e.settings? = none) →
        List.Forall₂ (fun p q => p.2.SamePositions q.2)
          (((ofTablet tablet).run [.configure a]).course configure events)
          (((ofTablet tablet).run [.configure b]).course configure events) := by
  refine ⟨fun _ _ hext _ _ hparse => Expr.parse_of_extends hext hparse, ?_⟩
  intro a b h tablet
  obtain ⟨filters, ha⟩ := h.compile_left
  obtain ⟨others, hb⟩ := h.compile_right
  refine ⟨⟨filters, ?_, ?_⟩, ⟨others, ?_, ?_⟩, ?_⟩
  · rw [configure_ofTablet tablet ha]
  · rw [(FilterSet.serves_of_compile ha).1, h.filterVariant_left]
  · rw [configure_ofTablet tablet hb]
  · rw [(FilterSet.serves_of_compile hb).1, h.filterVariant_right]
  · intro events hevents
    apply (abreast_widened h tablet).course
    exact List.forall₂_same.mpr fun e he => Event.samePositions_self (hevents e he)

/-- The theorem at formulas that look back, where the pressure formula of the extended variant is
no formula at all and its tilt is computed from the pressure. -/
theorem widening_keeps_positions_smoothed :
    let a : Settings := { x := "x + lx", y := "pi * y" }
    let b : Settings :=
      { a with variant := .extended, pressure := "p +", tiltX := "lp", tiltY := "" }
    let tree : Expr := .binary .add (.var "x" 0) (.var "lx" 2)
    let tablet : Tablet := ⟨.ofInt _ 100, .ofInt _ 50, 8191⟩
    let events : List Event :=
      [.process { position := some ⟨.ofInt _ 1, .ofInt _ 2⟩, pressure := some 7 }, .resetHistory,
        .setTablet ⟨.ofInt _ 10, .ofInt _ 5, 0⟩, .process { pressure := some 3 }]
    Expr.parse Variant.basic.schema a.x = .ok tree ∧
      Expr.parse Variant.extended.schema a.x = .ok tree ∧
      a.Widens b ∧ (∀ e ∈ events, e.settings? = none) ∧
      List.Forall₂ (fun p q => p.2.SamePositions q.2)
        (((ofTablet tablet).run [.configure a]).course configure events)
        (((ofTablet tablet).run [.configure b]).course configure events) := by
  intro a b tree tablet events
  have hx : Expr.parse Variant.basic.schema "x + lx" =
      .ok (.binary .add (.var "x" 0) (.var "lx" 2)) := by rfl
  have hy : Expr.parse Variant.basic.schema "pi * y" =
      .ok (.binary .mul (.number Double.pi) (.var "y" 1)) := by rfl
  have hwidens : a.Widens b :=
    { basic := rfl
      extended := rfl
      formula := fun c hc => by cases c <;> first | rfl | cases hc
      accepted := fun c hc => by
        cases c with
        | x => exact ⟨_, Program.ofFormula_eq_ok_iff.mpr ⟨tree, hx, rfl⟩⟩
        | y => exact ⟨_, Program.ofFormula_eq_ok_iff.mpr ⟨_, hy, rfl⟩⟩
        | pressure | tiltX | tiltY => cases hc
      size := fun c => by cases c <;> decide }
  have hevents : ∀ e ∈ events, e.settings? = none := by simp [events, Event.settings?]
  obtain ⟨hread, hkeep⟩ := widening_keeps_positions
  exact ⟨hx, hread _ _ Variant.extends_basic _ tree hx, hwidens, hevents,
    (hkeep a b hwidens tablet).2.2 events hevents⟩

end Stage

end PenFilter
