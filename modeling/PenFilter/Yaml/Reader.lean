import PenFilter.Yaml.Token

/-! # YAML documents

`Yaml.read?` reads a text with at most one document as a tree of scalars, sequences and
mappings.  A node that is left out, such as a missing value, is the empty plain scalar.  Anchors,
aliases, tags and directives are not read. -/

namespace PenFilter

inductive Yaml where
  | scalar (isPlain : Bool) (text : String)
  | sequence (items : List Yaml)
  | mapping (members : List (Yaml × Yaml))

namespace Yaml

/-- A node that is left out. -/
def missing : Yaml := .scalar true ""

/-- Reads from a list of tokens and gives the rest. -/
abbrev Reader (α : Type) := List Token → Option (α × List Token)

mutual

/-- One node.  Block collections are read where `inBlock` allows them, and a sequence without an
indentation of its own where `indentless` does. -/
def node? : Nat → (inBlock indentless : Bool) → Reader Yaml
  | 0, _, _, _ => none
  | fuel + 1, inBlock, indentless, ts =>
    match ts with
    | .scalar isPlain text :: ts => some (.scalar isPlain text, ts)
    | .flowSequenceStart :: ts => (flowItems? fuel true ts).map fun (vs, ts) => (.sequence vs, ts)
    | .flowMappingStart :: ts => (flowMembers? fuel true ts).map fun (ms, ts) => (.mapping ms, ts)
    | .blockEntry :: _ =>
      if indentless then (plainItems? fuel ts).map fun (vs, ts) => (.sequence vs, ts) else none
    | .sequenceStart :: ts =>
      if inBlock then (items? fuel ts).map fun (vs, ts) => (.sequence vs, ts) else none
    | .mappingStart :: ts =>
      if inBlock then (members? fuel ts).map fun (ms, ts) => (.mapping ms, ts) else none
    | _ => none

/-- The entries of a block sequence and its end. -/
def items? : Nat → Reader (List Yaml)
  | 0, _ => none
  | fuel + 1, ts =>
    match ts with
    | .blockEnd :: ts => some ([], ts)
    | .blockEntry :: ts => do
      let (v, ts) ← match ts with
        | .blockEntry :: _ | .blockEnd :: _ => some (missing, ts)
        | _ => node? fuel true false ts
      let (vs, ts) ← items? fuel ts
      some (v :: vs, ts)
    | _ => none

/-- The entries of a sequence without an indentation of its own. -/
def plainItems? : Nat → Reader (List Yaml)
  | 0, _ => none
  | fuel + 1, ts =>
    match ts with
    | .blockEntry :: ts => do
      let (v, ts) ← match ts with
        | .blockEntry :: _ | .key :: _ | .value :: _ | .blockEnd :: _ => some (missing, ts)
        | _ => node? fuel true false ts
      let (vs, ts) ← plainItems? fuel ts
      some (v :: vs, ts)
    | _ => some ([], ts)

/-- The members of a block mapping and its end. -/
def members? : Nat → Reader (List (Yaml × Yaml))
  | 0, _ => none
  | fuel + 1, ts =>
    match ts with
    | .blockEnd :: ts => some ([], ts)
    | .key :: ts => do
      let (k, ts) ← blockPart? fuel ts
      let (v, ts) ← match ts with
        | .value :: ts => blockPart? fuel ts
        | _ => some (missing, ts)
      let (ms, ts) ← members? fuel ts
      some ((k, v) :: ms, ts)
    | _ => none

/-- A key or value of a block mapping, if it is there. -/
def blockPart? : Nat → Reader Yaml
  | 0, _ => none
  | fuel + 1, ts =>
    match ts with
    | .key :: _ | .value :: _ | .blockEnd :: _ => some (missing, ts)
    | _ => node? fuel true true ts

/-- The entries of a flow sequence and its end; all but the first follow a comma.  A mark that
stands where the key of a single member should be is taken with the missing key. -/
def flowItems? : Nat → (first : Bool) → Reader (List Yaml)
  | 0, _, _ => none
  | fuel + 1, first, ts =>
    match ts with
    | .flowSequenceEnd :: ts => some ([], ts)
    | _ => do
      let ts ← match first, ts with
        | true, ts => some ts
        | false, .flowEntry :: ts => some ts
        | false, _ => none
      match ts with
      | .flowSequenceEnd :: ts => some ([], ts)
      | .key :: ts =>
        let (k, ts) ← match ts with
          | .value :: ts | .flowEntry :: ts | .flowSequenceEnd :: ts => some (missing, ts)
          | _ => node? fuel false false ts
        let (v, ts) ← match ts with
          | .value :: ts => match ts with
            | .flowEntry :: _ | .flowSequenceEnd :: _ => some (missing, ts)
            | _ => node? fuel false false ts
          | _ => some (missing, ts)
        let (vs, ts) ← flowItems? fuel false ts
        some (.mapping [(k, v)] :: vs, ts)
      | _ =>
        let (v, ts) ← node? fuel false false ts
        let (vs, ts) ← flowItems? fuel false ts
        some (v :: vs, ts)

/-- The members of a flow mapping and its end; all but the first follow a comma. -/
def flowMembers? : Nat → (first : Bool) → Reader (List (Yaml × Yaml))
  | 0, _, _ => none
  | fuel + 1, first, ts =>
    match ts with
    | .flowMappingEnd :: ts => some ([], ts)
    | _ => do
      let ts ← match first, ts with
        | true, ts => some ts
        | false, .flowEntry :: ts => some ts
        | false, _ => none
      match ts with
      | .flowMappingEnd :: ts => some ([], ts)
      | .key :: ts =>
        let (k, ts) ← flowPart? fuel ts
        let (v, ts) ← match ts with
          | .value :: ts => flowPart? fuel ts
          | _ => some (missing, ts)
        let (ms, ts) ← flowMembers? fuel false ts
        some ((k, v) :: ms, ts)
      | _ =>
        let (k, ts) ← node? fuel false false ts
        let (ms, ts) ← flowMembers? fuel false ts
        some ((k, missing) :: ms, ts)

/-- A key or value of a flow mapping, if it is there. -/
def flowPart? : Nat → Reader Yaml
  | 0, _ => none
  | fuel + 1, ts =>
    match ts with
    | .value :: _ | .flowEntry :: _ | .flowMappingEnd :: _ => some (missing, ts)
    | _ => node? fuel false false ts

end

/-- The document of a list of tokens, if there is one, and nothing else. -/
def ofTokens? (ts : List Token) : Option (Option Yaml) :=
  let fuel := 3 * ts.length + 3
  let finished (ts : List Token) : Bool :=
    (ts.dropWhile (· == .documentEnd)).isEmpty
  match ts with
  | [] => some none
  | .documentStart :: ts => do
    let (v, ts) ← match ts with
      | [] | .documentStart :: _ | .documentEnd :: _ => some (missing, ts)
      | _ => node? fuel true false ts
    if finished ts then some (some v) else none
  | _ => do
    let (v, ts) ← node? fuel true false ts
    if finished ts then some (some v) else none

/-- The document of a text with at most one, none inside when it is empty. -/
def read? (text : String) : Option (Option Yaml) := (scan? text).bind ofTokens?

/-! ### Values of scalars -/

/-- The number that digits of a base spell, at least one of them. -/
def radixNumber? (base : Nat) (ds : List Char) : Option Nat :=
  if ds.isEmpty then none
  else ds.foldlM (fun n c => do
    let d ← Json.hexDigit? c
    if d < base then some (base * n + d) else none) 0

/-- A natural number below `bound`: decimal without leading zeros, or with `0x`, `0o` or `0b`
before its digits, and an optional plus sign in front. -/
def toNat? (bound : Nat) : Yaml → Option Nat
  | .scalar true text => do
    let cs := match text.toList with
      | '+' :: cs => cs
      | cs => cs
    let n ← match cs with
      | '0' :: 'x' :: ds => radixNumber? 16 ds
      | '0' :: 'o' :: ds => radixNumber? 8 ds
      | '0' :: 'b' :: ds => radixNumber? 2 ds
      | ['0'] => some 0
      | '0' :: _ => none
      | ds => radixNumber? 10 ds
    if n < bound then some n else none
  | _ => none

/-- A number of 32 bits: a numeral of a finite number, or one of the words for the others. -/
def toSingle? : Yaml → Option Single
  | .scalar true text =>
    if [".inf", ".Inf", ".INF", "+.inf", "+.Inf", "+.INF"].contains text then
      some (.infinity _ false)
    else if ["-.inf", "-.Inf", "-.INF"].contains text then some (.infinity _ true)
    else if [".nan", ".NaN", ".NAN"].contains text then some (.nan _ false)
    else do
      let cs ← match text.toList with
        | '+' :: '+' :: _ | '+' :: '-' :: _ => none
        | cs => some cs
      let x : Double ← Binary.read? .binary64 cs
      if x.isFinite then some x.toSingle else none
  | _ => none

def toText? : Yaml → Option String
  | .scalar _ text => some text
  | _ => none

/-! ### Records -/

/-- The value of a key that occurs at most once; a repeated one is no record. -/
def member? (members : List (String × Yaml)) (key : String) : Option (Option Yaml) :=
  match members.filter (·.1 == key) with
  | [] => some none
  | [(_, v)] => some (some v)
  | _ => none

/-- The values of the fields of a record, each if it is given.  An empty node has none. -/
def fields? (keys : List String) : Option Yaml → Option (List (Option Yaml))
  | none | some (.scalar true "") => some (keys.map fun _ => none)
  | some (.mapping members) => do
    let members ← members.mapM fun (key, v) => key.toText?.map (·, v)
    keys.mapM (member? members)
  | _ => none

/-- A field that may be left out. -/
def withDefault? {α} (default : α) (read : Yaml → Option α) : Option Yaml → Option α
  | none => some default
  | some v => read v

end Yaml

end PenFilter
