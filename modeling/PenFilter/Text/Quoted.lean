import PenFilter.Text.Glyphless

/-! # Quoted text

The quoted form of texts and characters in structured descriptions: quotes and backslashes get
a backslash, a few controls have a letter, and any other character without a glyph is written
as its code point.  `quotedList` and `quotedRecord` put such values together. -/

namespace PenFilter

/-- A number in lower-case hexadecimal digits, without leading zeros. -/
def hexText (n : Nat) : List Char := Nat.toDigits 16 n

/-- A character inside the quote `delimiter`. -/
def quotedChar (delimiter c : Char) : List Char :=
  if c = delimiter || c = '\\' then ['\\', c]
  else if c = '\x00' then ['\\', '0']
  else if c = '\t' then ['\\', 't']
  else if c = '\r' then ['\\', 'r']
  else if c = '\n' then ['\\', 'n']
  else if isGlyphless c then ['\\', 'u', '\x7b'] ++ hexText c.toNat ++ ['\x7d']
  else [c]

/-- A text in quotes. -/
def quoted (s : String) : String :=
  String.ofList ('\"' :: s.toList.flatMap (quotedChar '\"') ++ ['\"'])

/-- A character in quotes. -/
def quotedLetter (c : Char) : String := String.ofList ('\'' :: quotedChar '\'' c ++ ['\''])

/-- The described items of a list, in brackets. -/
def quotedList (items : List String) : String := "[" ++ ", ".intercalate items ++ "]"

/-- The described fields of a record, in braces after its name. -/
def quotedRecord (name : String) (fields : List (String × String)) : String :=
  name ++ " \x7b " ++ ", ".intercalate (fields.map fun (key, value) => key ++ ": " ++ value)
    ++ " \x7d"

/-- The described fields of a record of which not all are shown. -/
def quotedOpenRecord (name : String) (fields : List (String × String)) : String :=
  name ++ " \x7b " ++
    String.join (fields.map fun (key, value) => key ++ ": " ++ value ++ ", ") ++ ".. \x7d"

/-- What an optional value is described as. -/
def quotedOption (item : Option String) : String :=
  match item with
  | none => "None"
  | some s => "Some(" ++ s ++ ")"

end PenFilter
