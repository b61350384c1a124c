import PenFilter.Number.Layout
import PenFilter.Text.Quoted

/-! # JSON values and their texts

`Json.compact` writes a value without white space and `Json.pretty` on indented lines.  A number
is kept as it is written.  Escapes in a string may spell half of a surrogate pair; such a string
is no Unicode text and is kept as `none`, since it does no harm where its value is not used. -/

namespace PenFilter

inductive Json where
  | null
  | bool (value : Bool)
  | number (literal : List Char)
  | string (text : Option String)
  | array (items : List Json)
  | object (members : List (Option String × Json))

namespace Json

def ofString (s : String) : Json := .string (some s)

def ofNat (n : Nat) : Json := .number (Decimal.digits n)

/-- An object whose keys are ordinary texts. -/
def ofMembers (members : List (String × Json)) : Json :=
  .object (members.map fun (key, value) => (some key, value))

/-- A finite number as it is, and the words for the other values as strings. -/
def ofBinary {fmt} (x : Binary fmt) : Json :=
  if x.isFinite then .number (x.text (.json fmt)).toList else .ofString (x.text .plain)

/-- One character inside a string. -/
def escapedChar (c : Char) : List Char :=
  if c = '\"' then ['\\', '\"']
  else if c = '\\' then ['\\', '\\']
  else if c = '\x08' then ['\\', 'b']
  else if c = '\x0c' then ['\\', 'f']
  else if c = '\n' then ['\\', 'n']
  else if c = '\r' then ['\\', 'r']
  else if c = '\t' then ['\\', 't']
  else if c.toNat < 0x20 then
    let ds := hexText c.toNat
    ['\\', 'u'] ++ List.replicate (4 - ds.length) '0' ++ ds
  else [c]

/-- A string in quotes; half of a surrogate pair has no written form and leaves it empty. -/
def stringText (s : Option String) : List Char :=
  '\"' :: (s.getD "").toList.flatMap escapedChar ++ ['\"']

/-- Texts with a separator between them. -/
def separated (separator : List Char) : List (List Char) → List Char
  | [] => []
  | [t] => t
  | t :: ts => t ++ separator ++ separated separator ts

mutual

/-- The text without white space. -/
def compactChars : Json → List Char
  | null => ['n', 'u', 'l', 'l']
  | bool true => ['t', 'r', 'u', 'e']
  | bool false => ['f', 'a', 'l', 's', 'e']
  | number literal => literal
  | string s => stringText s
  | array items => '[' :: separated [','] (compactItems items) ++ [']']
  | object members => '\x7b' :: separated [','] (compactMembers members) ++ ['\x7d']

def compactItems : List Json → List (List Char)
  | [] => []
  | v :: vs => compactChars v :: compactItems vs

def compactMembers : List (Option String × Json) → List (List Char)
  | [] => []
  | (key, v) :: ms => (stringText key ++ ':' :: compactChars v) :: compactMembers ms

end

/-- A line break and the blanks of a nesting level. -/
def newline (level : Nat) : List Char := '\n' :: List.replicate (2 * level) ' '

/-- Texts on lines of their own, one level further in than the brackets around them. -/
def block (level : Nat) (first last : Char) (texts : List (List Char)) : List Char :=
  if texts.isEmpty then [first, last]
  else first :: newline (level + 1) ++ separated (',' :: newline (level + 1)) texts ++
    newline level ++ [last]

mutual

/-- The text on indented lines, from a nesting level on. -/
def prettyChars (level : Nat) : Json → List Char
  | array items => block level '[' ']' (prettyItems (level + 1) items)
  | object members => block level '\x7b' '\x7d' (prettyMembers (level + 1) members)
  | null => compactChars null
  | bool b => compactChars (bool b)
  | number literal => compactChars (number literal)
  | string s => compactChars (string s)

def prettyItems (level : Nat) : List Json → List (List Char)
  | [] => []
  | v :: vs => prettyChars level v :: prettyItems level vs

def prettyMembers (level : Nat) : List (Option String × Json) → List (List Char)
  | [] => []
  | (key, v) :: ms =>
    (stringText key ++ [':', ' '] ++ prettyChars level v) :: prettyMembers level ms

end

def compact (v : Json) : String := String.ofList v.compactChars

def pretty (v : Json) : String := String.ofList (v.prettyChars 0)

end Json

end PenFilter
