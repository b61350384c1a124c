import PenFilter.Number.Layout

/-! # Tokens of formula text

A token is a numeral, a name or one of eight symbols; `Placed` adds the byte where it starts.
`Token.text` describes a token in messages. -/

namespace PenFilter

inductive Token where
  | number (value : Double)
  | name (text : String)
  | plus | minus | star | slash | caret | opening | closing | comma
deriving DecidableEq

namespace Token

/-- The symbol tokens. -/
def ofChar? : Char → Option Token
  | '+' => some .plus
  | '-' => some .minus
  | '*' => some .star
  | '/' => some .slash
  | '^' => some .caret
  | '(' => some .opening
  | ')' => some .closing
  | ',' => some .comma
  | _ => none

/-- A token as messages describe it. -/
def text : Token → String
  | .number value => "number " ++ value.text .plain
  | .name s => "identifier '" ++ s ++ "'"
  | .plus => "'+'"
  | .minus => "'-'"
  | .star => "'*'"
  | .slash => "'/'"
  | .caret => "'^'"
  | .opening => "'('"
  | .closing => "')'"
  | .comma => "','"

end Token

/-- A token and the byte offset of its first character. -/
structure Placed where
  token : Token
  offset : Nat
deriving DecidableEq

end PenFilter
