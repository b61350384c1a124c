import PenFilter.Json

/-! # Reading JSON

The text is first cut into tokens (`Json.scan?`), then the tokens are put together
(`Json.ofTokens?`).  The second step keeps the open arrays and objects on a list of frames, so
values may be nested to any depth; `Json.State.step?` says which token may follow where. -/

namespace PenFilter

namespace Json

inductive Token where
  | openArray | closeArray | openObject | closeObject | colon | comma
  | null
  | bool (value : Bool)
  | number (literal : List Char)
  | string (text : Option String)
deriving DecidableEq

/-! ### Lexemes -/

/-- The white space that may stand between tokens. -/
def isSpace (c : Char) : Bool := c == ' ' || c == '\t' || c == '\n' || c == '\r'

def hexDigit? (c : Char) : Option Nat :=
  if c.isDigit then some (c.toNat - '0'.toNat)
  else if 'a' ≤ c && c ≤ 'f' then some (c.toNat - 'a'.toNat + 10)
  else if 'A' ≤ c && c ≤ 'F' then some (c.toNat - 'A'.toNat + 10)
  else none

/-- The number that hexadecimal digits spell. -/
def hexNumber? (cs : List Char) : Option Nat :=
  cs.foldlM (fun n c => (hexDigit? c).map (16 * n + ·)) 0

/-- The character after a backslash. -/
def escape? : Char → Option Char
  | '\"' => some '\"'
  | '\\' => some '\\'
  | '/' => some '/'
  | 'b' => some '\x08'
  | 'f' => some '\x0c'
  | 'n' => some '\n'
  | 'r' => some '\r'
  | 't' => some '\t'
  | _ => none

/-- The content of a string, with escaped code units not yet joined to characters, and what
follows the closing quote. -/
def stringBody? : List Char → Option (List (Char ⊕ Nat) × List Char)
  | [] => none
  | '\"' :: rest => some ([], rest)
  | '\\' :: 'u' :: a :: b :: c :: d :: rest => do
    let n ← hexNumber? [a, b, c, d]
    let (units, rest) ← stringBody? rest
    some (.inr n :: units, rest)
  | '\\' :: e :: rest => do
    let c ← escape? e
    let (units, rest) ← stringBody? rest
    some (.inl c :: units, rest)
  | c :: rest => do
    if c.toNat < 0x20 || c = '\\' then none
    let (units, rest) ← stringBody? rest
    some (.inl c :: units, rest)

def isHighSurrogate (n : Nat) : Bool := 0xD800 ≤ n && n < 0xDC00

def isLowSurrogate (n : Nat) : Bool := 0xDC00 ≤ n && n < 0xE000

/-- The characters of a string; none when half of a surrogate pair stands alone. -/
def joinUnits? : List (Char ⊕ Nat) → Option (List Char)
  | [] => some []
  | .inl c :: units => (joinUnits? units).map (c :: ·)
  | .inr h :: .inr l :: units =>
    if isHighSurrogate h then
      if isLowSurrogate l then
        (joinUnits? units).map (Char.ofNat (0x10000 + (h - 0xD800) * 0x400 + (l - 0xDC00)) :: ·)
      else none
    else if isLowSurrogate h then none
    else (joinUnits? (.inr l :: units)).map (Char.ofNat h :: ·)
  | .inr n :: units =>
    if isHighSurrogate n || isLowSurrogate n then none
    else (joinUnits? units).map (Char.ofNat n :: ·)

/-- One or more digits at the front of a text. -/
def digits? (cs : List Char) : Option (List Char × List Char) :=
  let ds := cs.takeWhile Char.isDigit
  if ds.isEmpty then none else some (ds, cs.dropWhile Char.isDigit)

/-- The fraction at the front of a text, if there is one. -/
def fraction? : List Char → Option (List Char × List Char)
  | '.' :: cs => (digits? cs).map fun (ds, rest) => ('.' :: ds, rest)
  | cs => some ([], cs)

/-- The exponent at the front of a text, if there is one. -/
def exponent? : List Char → Option (List Char × List Char)
  | [] => some ([], [])
  | c :: cs =>
    if c == 'e' || c == 'E' then
      let (sign, cs) : List Char × List Char := match cs with
        | '+' :: cs => (['+'], cs)
        | '-' :: cs => (['-'], cs)
        | cs => ([], cs)
      (digits? cs).map fun (ds, rest) => (c :: sign ++ ds, rest)
    else some ([], c :: cs)

/-- The digits before the point: a zero, or digits that start with another. -/
def whole? : List Char → Option (List Char × List Char)
  | '0' :: cs => some (['0'], cs)
  | cs => digits? cs

/-- The number at the front of a text. -/
def numberLiteral? (cs : List Char) : Option (List Char × List Char) := do
  let (sign, cs) : List Char × List Char := match cs with
    | '-' :: cs => (['-'], cs)
    | cs => ([], cs)
  let (whole, cs) ← whole? cs
  let (fraction, cs) ← fraction? cs
  let (exponent, cs) ← exponent? cs
  some (sign ++ whole ++ fraction ++ exponent, cs)

/-- The token at the front of a text that does not start with white space, and the rest. -/
def front? : List Char → Option (Token × List Char)
  | '[' :: rest => some (.openArray, rest)
  | ']' :: rest => some (.closeArray, rest)
  | '\x7b' :: rest => some (.openObject, rest)
  | '\x7d' :: rest => some (.closeObject, rest)
  | ':' :: rest => some (.colon, rest)
  | ',' :: rest => some (.comma, rest)
  | 'n' :: 'u' :: 'l' :: 'l' :: rest => some (.null, rest)
  | 't' :: 'r' :: 'u' :: 'e' :: rest => some (.bool true, rest)
  | 'f' :: 'a' :: 'l' :: 's' :: 'e' :: rest => some (.bool false, rest)
  | '\"' :: rest =>
    (stringBody? rest).map fun (units, rest) =>
      (.string ((joinUnits? units).map String.ofList), rest)
  | cs => (numberLiteral? cs).map fun (literal, rest) => (.number literal, rest)

/-- The tokens of a text.  The number `pending` counts the characters that still belong to the
token read last. -/
def scanFrom? (pending : Nat) : List Char → Option (List Token)
  | [] => some []
  | c :: cs =>
    match pending with
    | k + 1 => scanFrom? k cs
    | 0 =>
      if isSpace c then scanFrom? 0 cs
      else do
        let (t, rest) ← front? (c :: cs)
        let ts ← scanFrom? (cs.length - rest.length) cs
        some (t :: ts)

def scan? (cs : List Char) : Option (List Token) := scanFrom? 0 cs

/-! ### Values -/

/-- A container that is still open. -/
inductive Frame where
  | array (items : List Json)
  /-- an object that waits for the value of `key` -/
  | object (members : List (Option String × Json)) (key : Option String)

/-- What has been read, and what may follow. -/
inductive State where
  /-- a value must follow -/
  | value (frames : List Frame)
  /-- an array has just been opened -/
  | arrayStart (frames : List Frame)
  /-- an object has just been opened -/
  | objectStart (frames : List Frame)
  /-- a key must follow -/
  | key (members : List (Option String × Json)) (frames : List Frame)
  /-- a colon must follow -/
  | colon (members : List (Option String × Json)) (key : Option String) (frames : List Frame)
  /-- a value is complete -/
  | done (value : Json) (frames : List Frame)

namespace State

/-- The token begins a value. -/
def open? (frames : List Frame) : Token → Option State
  | .openArray => some (.arrayStart frames)
  | .openObject => some (.objectStart frames)
  | .null => some (.done .null frames)
  | .bool b => some (.done (.bool b) frames)
  | .number literal => some (.done (.number literal) frames)
  | .string s => some (.done (.string s) frames)
  | .closeArray | .closeObject | .colon | .comma => none

def step? : State → Token → Option State
  | .value frames, t => open? frames t
  | .arrayStart frames, .closeArray => some (.done (.array []) frames)
  | .arrayStart frames, t => open? (.array [] :: frames) t
  | .objectStart frames, .closeObject => some (.done (.object []) frames)
  | .objectStart frames, .string s => some (.colon [] s frames)
  | .objectStart _, _ => none
  | .key ms frames, .string s => some (.colon ms s frames)
  | .key _ _, _ => none
  | .colon ms k frames, .colon => some (.value (.object ms k :: frames))
  | .colon _ _ _, _ => none
  | .done v (.array vs :: frames), .comma => some (.value (.array (vs ++ [v]) :: frames))
  | .done v (.array vs :: frames), .closeArray => some (.done (.array (vs ++ [v])) frames)
  | .done v (.object ms k :: frames), .comma => some (.key (ms ++ [(k, v)]) frames)
  | .done v (.object ms k :: frames), .closeObject =>
    some (.done (.object (ms ++ [(k, v)])) frames)
  | .done _ _, _ => none

end State

/-- The one value that the tokens spell. -/
def ofTokens? (ts : List Token) : Option Json :=
  match ts.foldlM State.step? (.value []) with
  | some (.done v []) => some v
  | _ => none

/-- The one value of a text. -/
def read? (s : String) : Option Json := (scan? s.toList).bind ofTokens?

end Json

end PenFilter
