import PenFilter.Yaml.Scalar

/-! # YAML texts as tokens

Indentation and the colons behind keys become tokens of their own.  The start of a mapping is
known only when a colon follows its first key, so the scanner remembers where a key may have
begun (`SimpleKey`) and inserts the tokens there.  The texts read are those without anchors,
aliases, tags and directives. -/

namespace PenFilter

namespace Yaml

inductive Token where
  | documentStart | documentEnd
  | sequenceStart | mappingStart | blockEnd
  | flowSequenceStart | flowSequenceEnd | flowMappingStart | flowMappingEnd
  | blockEntry | flowEntry | key | value
  | scalar (isPlain : Bool) (text : String)
deriving DecidableEq

/-- A place where a key may have begun. -/
structure SimpleKey where
  /-- nothing but a key may stand there -/
  required : Bool
  /-- the number of tokens before it -/
  position : Nat
  line : Nat
  column : Nat
  index : Nat

structure Scanner where
  rest : List Char
  line : Nat := 0
  column : Nat := 0
  /-- how many bytes have been taken -/
  index : Nat := 0
  /-- the columns of the open block collections, the innermost first -/
  indents : List Nat := []
  /-- a possible key for each open flow collection and one for the outside -/
  keys : List (Option SimpleKey) := [none]
  keyAllowed : Bool := true
  tokens : Array Token := #[]

namespace Scanner

def inFlow (s : Scanner) : Bool := 1 < s.keys.length

/-- The column of the innermost block collection is to the left of `column`. -/
def isInside (s : Scanner) (column : Nat) : Bool := s.indents.head?.all (· < column)

/-- The scanner behind the next `n` characters. -/
def take (s : Scanner) (n : Nat) : Scanner :=
  let cs := s.rest.take n
  { s with
    rest := s.rest.drop n
    line := s.line + cs.countP isBreak
    column := columnAfter s.column cs
    index := cs.foldl (fun index c => index + c.utf8Size) s.index }

def emit (s : Scanner) (t : Token) : Scanner := { s with tokens := s.tokens.push t }

/-- Closes the block collections that begin to the right of `column`; all for none. -/
def closeBlocks (s : Scanner) (column : Option Nat) : Scanner :=
  if s.inFlow then s else
    let closed := s.indents.takeWhile fun indent => column.all (· < indent)
    { s with
      indents := s.indents.drop closed.length
      tokens := s.tokens ++ Array.replicate closed.length .blockEnd }

/-- Opens a block collection at a column, unless one is open there, with its token at a
position. -/
def openBlock (s : Scanner) (column position : Nat) (t : Token) : Scanner :=
  if !s.inFlow && s.isInside column then
    { s with
      indents := column :: s.indents
      tokens := s.tokens.insertIdxIfInBounds position t }
  else s

/-- Gives up the possible key of this level. -/
def dropKey? (s : Scanner) : Option Scanner :=
  match s.keys with
  | some key :: keys => if key.required then none else some { s with keys := none :: keys }
  | _ => some s

/-- Notes that a key may begin here. -/
def noteKey? (s : Scanner) : Option Scanner :=
  if s.keyAllowed then do
    let required := !s.inFlow && s.indents.head? == some s.column
    let key : SimpleKey := ⟨required, s.tokens.size, s.line, s.column, s.index⟩
    let s ← s.dropKey?
    some { s with keys := some key :: s.keys.drop 1 }
  else some s

/-- A key lies on one line and is not longer than 1024 bytes. -/
def SimpleKey.isStale (key : SimpleKey) (s : Scanner) : Bool :=
  key.line < s.line || key.index + 1024 < s.index

/-- Gives up the keys that can be none any more. -/
def dropStaleKeys? (s : Scanner) : Option Scanner := do
  let keys ← s.keys.mapM fun key => match key with
    | some k => if SimpleKey.isStale k s then (if k.required then none else some none) else some key
    | none => some none
  some { s with keys }

/-- Over white space and comments; a line break outside flow collections allows a key.  A byte
order mark may begin a line and takes a column there. -/
def skipBlanks : Nat → Scanner → Scanner
  | 0, s => s
  | fuel + 1, s =>
    match s.rest with
    | [] => s
    | c :: _ =>
      if c == ' ' || (c == '\t' && (s.inFlow || !s.keyAllowed)) || c == '\ufeff' && s.column == 0
      then skipBlanks fuel (s.take 1)
      else if c == '#' then skipBlanks fuel (s.take (s.rest.takeWhile (!isBreak ·)).length)
      else if isBreak c then
        let s := s.take 1
        skipBlanks fuel { s with keyAllowed := s.keyAllowed || !s.inFlow }
      else s

/-- A mark of `n` characters that is a token by itself; `allowed` says whether a key may
follow. -/
def mark? (s : Scanner) (n : Nat) (t : Token) (allowed : Bool) : Option Scanner := do
  let s ← s.dropKey?
  some { (s.take n).emit t with keyAllowed := allowed }

def documentMark? (s : Scanner) (t : Token) : Option Scanner :=
  (s.closeBlocks none).mark? 3 t false

def openFlow? (s : Scanner) (t : Token) : Option Scanner := do
  let s ← s.noteKey?
  some { (s.take 1).emit t with keys := none :: s.keys, keyAllowed := true }

def closeFlow? (s : Scanner) (t : Token) : Option Scanner := do
  let s ← s.dropKey?
  let keys := if s.inFlow then s.keys.drop 1 else s.keys
  some { (s.take 1).emit t with keys, keyAllowed := false }

def blockEntry? (s : Scanner) : Option Scanner :=
  if !s.inFlow && !s.keyAllowed then none
  else (s.openBlock s.column s.tokens.size .sequenceStart).mark? 1 .blockEntry true

def keyMark? (s : Scanner) : Option Scanner :=
  if !s.inFlow && !s.keyAllowed then none
  else (s.openBlock s.column s.tokens.size .mappingStart).mark? 1 .key (!s.inFlow)

def valueMark? (s : Scanner) : Option Scanner :=
  match s.keys with
  | some key :: keys =>
    let s := { s with
      keys := none :: keys
      tokens := s.tokens.insertIdxIfInBounds key.position .key }
    let s := s.openBlock key.column key.position .mappingStart
    some { (s.take 1).emit .value with keyAllowed := false }
  | _ =>
    if !s.inFlow && !s.keyAllowed then none
    else
      let s := s.openBlock s.column s.tokens.size .mappingStart
      some { (s.take 1).emit .value with keyAllowed := !s.inFlow }

def quotedScalar? (s : Scanner) (quote : Char) : Option Scanner := do
  let s ← s.noteKey?
  let (text, rest) ← quoted? quote (s.rest.length + 1) false (s.rest.drop 1)
  let s := (s.take (s.rest.length - rest.length)).emit (.scalar false (String.ofList text))
  some { s with keyAllowed := false }

def blockScalar? (s : Scanner) (fold : Bool) : Option Scanner := do
  let s ← s.dropKey?
  let (text, column, rest) ← block? fold s.indents.head? (s.rest.drop 1)
  let s := (s.take (s.rest.length - rest.length)).emit (.scalar false (String.ofList text))
  some { s with column, keyAllowed := true }

def plainScalar? (s : Scanner) : Option Scanner := do
  let s ← s.noteKey?
  let indent := (s.indents.head?.map (· + 1)).getD 0
  let (text, taken, broken) ← plain? s.inFlow indent (s.rest.length + 1) s.column s.rest
  let s := (s.take taken.length).emit (.scalar true (String.ofList text))
  some { s with keyAllowed := broken }

/-- The characters that cannot begin a plain scalar. -/
def isIndicator (c : Char) : Bool :=
  "-?:,[]#&*!|>'\"%@`".toList.contains c || c == '\x7b' || c == '\x7d'

/-- A plain scalar begins here. -/
def startsPlain (s : Scanner) : Bool :=
  match s.rest with
  | [] => false
  | c :: cs =>
    !(isBlankOrBreak c || isIndicator c) || (c == '-' && !atEndOr isBlank cs) ||
      (!s.inFlow && (c == '?' || c == ':') && !atEndOr isBlankOrBreak cs)

/-- The next token, which begins here. -/
def fetch? (s : Scanner) : Option Scanner :=
  match s.rest with
  | [] => some s
  | c :: cs =>
    let free := atEndOr isBlankOrBreak cs
    if s.column == 0 && c == '%' then none
    else if s.column == 0 && isDocumentMark s.rest then
      s.documentMark? (if c == '-' then .documentStart else .documentEnd)
    else if c == '[' then s.openFlow? .flowSequenceStart
    else if c == '\x7b' then s.openFlow? .flowMappingStart
    else if c == ']' then s.closeFlow? .flowSequenceEnd
    else if c == '\x7d' then s.closeFlow? .flowMappingEnd
    else if c == ',' then s.mark? 1 .flowEntry true
    else if c == '-' && free then s.blockEntry?
    else if c == '?' && (s.inFlow || free) then s.keyMark?
    else if c == ':' && (s.inFlow || free) then s.valueMark?
    else if c == '|' && !s.inFlow then s.blockScalar? false
    else if c == '>' && !s.inFlow then s.blockScalar? true
    else if c == '\'' || c == '\"' then s.quotedScalar? c
    else if s.startsPlain then s.plainScalar?
    else none

/-- The tokens from here on. -/
def run? : Nat → Scanner → Option Scanner
  | 0, _ => none
  | fuel + 1, s => do
    let s := skipBlanks (s.rest.length + 1) s
    let s ← s.dropStaleKeys?
    match s.rest with
    | [] => (s.closeBlocks none).dropKey?
    | _ :: _ => run? fuel (← (s.closeBlocks (some s.column)).fetch?)

end Scanner

/-- The tokens of a text. -/
def scan? (text : String) : Option (List Token) := do
  let cs := text.toList
  if cs.any (!isPrintable ·) then none
  let s ← Scanner.run? (cs.length + 1) { rest := normalized cs }
  some s.tokens.toList

end Yaml

end PenFilter
