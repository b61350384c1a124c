import PenFilter.Formula.Error
import PenFilter.Text.Blank

/-! # Formula text as tokens

`Token.scan` cuts a formula into lexemes, each as long as possible, with white space between
them.  A numeral takes an exponent only when a digit follows the letter, so `2e` is a number
and a name.  `Token.front` reads the lexeme at the front of a text and says how many
characters it has; `scanFrom` walks over the characters and counts bytes as it goes. -/

namespace PenFilter

/-- The characters of a numeral before its exponent. -/
def isMantissaChar (c : Char) : Bool := c.isDigit || c == '.'

/-- The characters that may begin a name. -/
def isNameStart (c : Char) : Bool := c.isAlpha || c == '_'

/-- The characters that may follow in a name. -/
def isNameChar (c : Char) : Bool := c.isAlphanum || c == '_'

/-- The exponent at the front of a text: a letter, an optional sign and at least one digit,
or nothing. -/
def exponentPart : List Char → List Char
  | [] => []
  | c :: cs =>
    if c == 'e' || c == 'E' then
      let (sign, ds) : List Char × List Char := match cs with
        | '+' :: ds => (['+'], ds)
        | '-' :: ds => (['-'], ds)
        | ds => ([], ds)
      let digits := ds.takeWhile Char.isDigit
      if digits.isEmpty then [] else c :: sign ++ digits
    else []

/-- The numeral at the front of a text. -/
def numeralPart (cs : List Char) : List Char :=
  cs.takeWhile isMantissaChar ++ exponentPart (cs.dropWhile isMantissaChar)

/-- The name at the front of a text. -/
def namePart (cs : List Char) : List Char := cs.takeWhile isNameChar

namespace Token

/-- The token at the front of a text that starts with `c` at a byte offset, and the number of
its characters. -/
def front (offset : Nat) (c : Char) (cs : List Char) : Except ParseError (Token × Nat) :=
  match ofChar? c with
  | some t => .ok (t, 1)
  | none =>
    if isMantissaChar c then
      let part := numeralPart (c :: cs)
      match Decimal.read? part with
      | some d => .ok (.number (.ofDecimal _ d), part.length)
      | none => .error (.invalidNumber (String.ofList part) offset)
    else if isNameStart c then
      let part := namePart (c :: cs)
      .ok (.name (String.ofList part), part.length)
    else .error (.unexpectedChar c offset)

/-- The tokens of a text that starts at a byte offset.  The number `pending` counts the
characters that still belong to the token read last. -/
def scanFrom (offset pending : Nat) : List Char → Except ParseError (List Placed)
  | [] => .ok []
  | c :: cs =>
    match pending with
    | k + 1 => scanFrom (offset + c.utf8Size) k cs
    | 0 =>
      if isBlank c then scanFrom (offset + c.utf8Size) 0 cs
      else match front offset c cs with
        | .error e => .error e
        | .ok (t, n) => (scanFrom (offset + c.utf8Size) (n - 1) cs).map (⟨t, offset⟩ :: ·)

/-- The tokens of a formula, or the first thing in it that is no token. -/
def scan (source : String) : Except ParseError (List Placed) := scanFrom 0 0 source.toList

end Token

end PenFilter
