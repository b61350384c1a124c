import PenFilter.Json

/-! # Records in JSON

A record is an object with a known list of keys, or an array of its fields in the same order.
Keys that are not known are passed over; a known key may not be repeated. -/

namespace PenFilter

namespace Json

/-- The value of a key that occurs at most once; a repeated one is no record. -/
def member? (members : List (String × Json)) (key : String) : Option (Option Json) :=
  match members.filter (·.1 == key) with
  | [] => some none
  | [(_, v)] => some (some v)
  | _ => none

/-- The values of the fields of a record, each if it is given. -/
def fields? (keys : List String) : Json → Option (List (Option Json))
  | .object members => do
    let members ← members.mapM fun (key, v) => key.map (·, v)
    keys.mapM (member? members)
  | .array items =>
    if items.length ≤ keys.length then
      some (items.map some ++ List.replicate (keys.length - items.length) none)
    else none
  | _ => none

/-- A field that may be left out or null. -/
def optional? {α} (read : Json → Option α) : Option Json → Option (Option α)
  | none | some .null => some none
  | some v => (read v).map some

/-- A field that may be left out but not null. -/
def withDefault? {α} (default : α) (read : Json → Option α) : Option Json → Option α
  | none => some default
  | some v => read v

/-- An ordinary text. -/
def toText? : Json → Option String
  | .string s => s
  | _ => none

end Json

end PenFilter
