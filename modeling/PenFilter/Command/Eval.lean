import PenFilter.Command.Result
import PenFilter.Formula.Program.Compile

/-! # Evaluating one formula

`evaluate` compiles a formula for a variant and runs it once.  Bindings of the form
`name=value` give values to variables, the others are zero; `bindValues` reads them in order, so
a later binding of a name wins and the first one that is wrong is the error. -/

namespace PenFilter

/-- The text before the first equals sign and the text after it. -/
def splitAtEquals? (cs : List Char) : Option (List Char × List Char) :=
  match cs.dropWhile (· != '=') with
  | [] => none
  | _ :: value => some (cs.takeWhile (· != '='), value)

/-- The slot and the value of a binding.  White space around the name and around the value
does not count, and the value is read before the name is looked up. -/
def readBinding (variant : Variant) (binding : String) : Except CommandError (Nat × Double) :=
  match splitAtEquals? binding.toList with
  | none => .error (.invalidBinding binding)
  | some (name, value) =>
    match Binary.read? .binary64 (trimmed value) with
    | none => .error (.invalidBinding binding)
    | some value =>
      let name := String.ofList (trimmed name)
      match variant.schema.slotOf? name with
      | none => .error (.unknownVariable name variant)
      | some slot => .ok (slot, value)

/-- The values by slot after bindings in turn. -/
def bindAll (variant : Variant) : List String → Array Double → Except CommandError (Array Double)
  | [], values => .ok values
  | binding :: bindings, values =>
    match readBinding variant binding with
    | .error e => .error e
    | .ok (slot, value) => bindAll variant bindings (values.setIfInBounds slot value)

/-- The values of a variant's variables by slot, zero where no binding names them. -/
def bindValues (variant : Variant) (bindings : List String) :
    Except CommandError (Array Double) :=
  bindAll variant bindings (Array.replicate variant.schema.size .zero)

namespace Complex

/-- The value of a formula for scripts. -/
def toJson (z : Complex) (formula : String) (variant : Variant) : Json :=
  .ofMembers
    [("formula", .ofString formula), ("imaginary", .ofBinary z.im), ("result", .ofBinary z.re),
      ("success", .bool true), ("variant", .ofString variant.text)]

/-- The real part for people, and what was left out. -/
def text (z : Complex) : String :=
  if z.isReal || z.im.isNaN then z.re.text .plain
  else z.re.text .plain ++ " (imaginary part " ++ z.im.text .plain ++ " dropped)"

end Complex

/-- The value of a formula with the given bindings. -/
def evaluateWith (variant : Variant) (formula : String) (bindings : List String) :
    Except CommandError Complex := do
  let values ← bindValues variant bindings
  match Program.ofFormula variant.schema formula with
  | .error e => .error (.formula e)
  | .ok program => .ok (program.call values []).1

/-- The command that evaluates a formula. -/
def evaluate (formula : String) (kind : VariantKind) (samples : UInt64) (bindings : List String)
    (audience : Audience) : CommandResult :=
  let settings : Settings := { variant := kind, samples }
  match settings.validate with
  | .error e => .failure (.settings e)
  | .ok () =>
    let variant := settings.filterVariant
    match evaluateWith variant formula bindings with
    | .error e => .failure e
    | .ok z => match audience with
      | .script => .ofJson (z.toJson formula variant)
      | .person => { printed := z.text ++ "\n" }

end PenFilter
