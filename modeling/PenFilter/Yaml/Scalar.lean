import PenFilter.Json.Reader

/-! # Scalars of YAML texts

Characters of YAML, the folding of line breaks, and the three ways to write a scalar: plain,
in quotes, and as a block.  Every reader takes the text from the start of the scalar and gives
the content and the rest of the text. -/

namespace PenFilter

namespace Yaml

def isBlank (c : Char) : Bool := c == ' ' || c == '\t'

/-- Line breaks, once `normalized` has brought the usual ones to one form. -/
def isBreak (c : Char) : Bool := c == '\n' || c == '\u2028' || c == '\u2029'

def isBlankOrBreak (c : Char) : Bool := isBlank c || isBreak c

/-- At the end, or before a character that satisfies `p`. -/
def atEndOr (p : Char → Bool) : List Char → Bool
  | [] => true
  | c :: _ => p c

/-- Line breaks of every usual form as one character. -/
def normalized : List Char → List Char
  | [] => []
  | '\r' :: '\n' :: cs => '\n' :: normalized cs
  | c :: cs => (if c == '\r' || c == '\u0085' then '\n' else c) :: normalized cs

/-- The characters that may stand in a text at all. -/
def isPrintable (c : Char) : Bool :=
  let n := c.toNat
  n == 0x09 || n == 0x0A || n == 0x0D || (0x20 ≤ n && n ≤ 0x7E) || n == 0x85 ||
    (0xA0 ≤ n && n ≤ 0xFFFD) || 0x10000 ≤ n

/-- What white space inside a scalar stands for: itself on one line, a blank for one line break,
and one line break less than there are for several. -/
def folded (gap : List Char) : List Char :=
  match gap.filter isBreak with
  | [] => gap
  | ['\n'] => [' ']
  | '\n' :: more => more
  | breaks => breaks

/-- Three dashes or points at the start of a line, alone or before white space. -/
def isDocumentMark : List Char → Bool
  | '-' :: '-' :: '-' :: cs => atEndOr isBlankOrBreak cs
  | '.' :: '.' :: '.' :: cs => atEndOr isBlankOrBreak cs
  | _ => false

/-- The column after a text that starts in a column. -/
def columnAfter (column : Nat) (cs : List Char) : Nat :=
  cs.foldl (fun n c => if isBreak c then 0 else n + 1) column

/-! ### Plain scalars -/

def isFlowMark (c : Char) : Bool := c == ',' || c == '[' || c == ']' || c == '\x7b' || c == '\x7d'

/-- The characters of a plain scalar up to white space or a mark that ends it; none when a
colon is misplaced. -/
def plainRun? (inFlow : Bool) : List Char → Option (List Char)
  | [] => some []
  | c :: cs =>
    if isBlankOrBreak c then some []
    else if inFlow && c == ':' && !atEndOr (fun d => !(isFlowMark d || d == '?')) cs then none
    else if c == ':' && atEndOr isBlankOrBreak cs then some []
    else if inFlow && isFlowMark c then some []
    else (plainRun? inFlow cs).map (c :: ·)

/-- A tab where the indentation of a continued line should be. -/
def tabInIndent (indent : Nat) (column : Nat) (afterBreak : Bool) : List Char → Bool
  | [] => false
  | c :: cs =>
    if isBreak c then tabInIndent indent 0 true cs
    else (afterBreak && column < indent && c == '\t') ||
      tabInIndent indent (column + 1) afterBreak cs

/-- The text of a plain scalar, the characters it takes, and whether a line ends behind it. -/
def plain? (inFlow : Bool) (indent : Nat) :
    Nat → Nat → List Char → Option (List Char × List Char × Bool)
  | 0, _, _ => none
  | fuel + 1, column, cs => do
    if column == 0 && isDocumentMark cs then return ([], [], false)
    if cs.head? == some '#' then return ([], [], false)
    let run ← plainRun? inFlow cs
    let gap := (cs.drop run.length).takeWhile isBlankOrBreak
    let rest := cs.drop (run.length + gap.length)
    if gap.isEmpty then return (run, run, false)
    let here := columnAfter column run
    if tabInIndent indent here false gap then none
    let next := columnAfter here gap
    if !inFlow && next < indent then return (run, run ++ gap, gap.any isBreak)
    let (text, taken, broken) ← plain? inFlow indent fuel next rest
    if text.isEmpty then return (run, run ++ gap ++ taken, gap.any isBreak)
    return (run ++ folded gap ++ text, run ++ gap ++ taken, broken)

/-! ### Scalars in quotes -/

/-- The character after a backslash, when it stands for one character alone. -/
def escape? : Char → Option Char
  | '0' => some '\x00'
  | 'a' => some '\x07'
  | 'b' => some '\x08'
  | 't' => some '\t'
  | '\t' => some '\t'
  | 'n' => some '\n'
  | 'v' => some '\x0b'
  | 'f' => some '\x0c'
  | 'r' => some '\r'
  | 'e' => some '\x1b'
  | ' ' => some ' '
  | '\"' => some '\"'
  | '/' => some '/'
  | '\\' => some '\\'
  | 'N' => some '\u0085'
  | '_' => some '\u00a0'
  | 'L' => some '\u2028'
  | 'P' => some '\u2029'
  | _ => none

/-- How many hexadecimal digits follow the letter of a numeric escape. -/
def escapeDigits? : Char → Option Nat
  | 'x' => some 2
  | 'u' => some 4
  | 'U' => some 8
  | _ => none

/-- The character of a numeric escape. -/
def escapedCode? (ds : List Char) : Option Char := do
  let n ← Json.hexNumber? ds
  if Nat.isValidChar n then some (Char.ofNat n) else none

/-- The content of a scalar behind its opening quote, and the rest behind the closing one.  The
flag tells the start of a line. -/
def quoted? (quote : Char) : Nat → Bool → List Char → Option (List Char × List Char)
  | 0, _, _ => none
  | fuel + 1, lineStart, cs =>
    if lineStart && isDocumentMark cs then none
    else match cs with
      | [] => none
      | c :: cs =>
        let one (d : Char) (rest : List Char) :=
          (quoted? quote fuel false rest).map fun (text, rest) => (d :: text, rest)
        if isBlankOrBreak c then
          let gap := (c :: cs).takeWhile isBlankOrBreak
          (quoted? quote fuel (gap.getLast?.any isBreak) ((c :: cs).drop gap.length)).map
            fun (text, rest) => (folded gap ++ text, rest)
        else if c == quote then
          match quote, cs with
          | '\'', '\'' :: rest => one '\'' rest
          | _, _ => some ([], cs)
        else if c == '\\' && quote == '\"' then
          match cs with
          | [] => none
          | e :: cs =>
            if isBreak e then
              let gap := cs.takeWhile isBlankOrBreak
              (quoted? quote fuel ((gap.getLast?.map isBreak).getD true)
                (cs.drop gap.length)).map
                fun (text, rest) => (gap.filter isBreak ++ text, rest)
            else match escape? e, escapeDigits? e with
              | some d, _ => one d cs
              | none, some n =>
                if cs.length < n then none
                else (escapedCode? (cs.take n)).bind fun d => one d (cs.drop n)
              | none, none => none
        else one c cs

/-! ### Block scalars -/

/-- What to do with the line breaks at the end of a block. -/
inductive Chomping where
  | strip | clip | keep
deriving DecidableEq, Repr

def chomping? : Char → Option Chomping
  | '+' => some .keep
  | '-' => some .strip
  | _ => none

def indentDigit? (c : Char) : Option Nat :=
  if '1' ≤ c && c ≤ '9' then some (c.toNat - '0'.toNat) else none

/-- The marks behind the bar: the chomping and the number of columns, in either order. -/
def blockHeader (cs : List Char) : Chomping × Option Nat × List Char :=
  match cs with
  | [] => (.clip, none, [])
  | c :: rest =>
    match chomping? c, indentDigit? c with
    | some chomping, _ =>
      match rest.head?.bind indentDigit? with
      | some n => (chomping, some n, rest.drop 1)
      | none => (chomping, none, rest)
    | none, some n =>
      match rest.head?.bind chomping? with
      | some chomping => (chomping, some n, rest.drop 1)
      | none => (.clip, some n, rest)
    | none, none => (.clip, none, c :: rest)

/-- The greatest indentation of the lines before the first that is not empty, and of that line;
none for a tab in the indentation. -/
def widestIndent? : Nat → List Char → Option Nat
  | 0, _ => none
  | fuel + 1, cs =>
    let n := (cs.takeWhile (· == ' ')).length
    match cs.drop n with
    | [] => some n
    | c :: rest =>
      if c == '\t' then none
      else if isBreak c then (widestIndent? fuel rest).map (max n)
      else some n

/-- A line of a block: its content, unless it is empty, and the break at its end. -/
structure BlockLine where
  content : Option (List Char)
  lineBreak : List Char

/-- The lines that are indented by `indent` columns, and the column and text behind them; none
for a tab in the indentation. -/
def blockLines? (indent : Nat) : Nat → List Char → Option (List BlockLine × Nat × List Char)
  | 0, _ => none
  | fuel + 1, cs =>
    let n := min indent (cs.takeWhile (· == ' ')).length
    match cs.drop n with
    | [] => some ([], n, [])
    | c :: rest =>
      if n < indent && c == '\t' then none
      else if isBreak c then
        (blockLines? indent fuel rest).map fun (lines, rest) => (⟨none, [c]⟩ :: lines, rest)
      else if n < indent then some ([], n, c :: rest)
      else
        let content := (c :: rest).takeWhile (!isBreak ·)
        match (c :: rest).drop content.length with
        | [] => some ([⟨some content, []⟩], n + content.length, [])
        | d :: rest =>
          (blockLines? indent fuel rest).map fun (lines, rest) =>
            (⟨some content, [d]⟩ :: lines, rest)

/-- The text of a block so far. -/
structure BlockText where
  text : List Char := []
  /-- the break behind the last line with content -/
  lineBreak : List Char := []
  /-- the breaks of the empty lines since then -/
  emptyLines : List Char := []
  /-- the last line with content begins with a blank -/
  leadingBlank : Bool := false

/-- One more line; folding joins two lines with a blank unless one of them begins with one. -/
def BlockText.add (fold : Bool) (t : BlockText) (line : BlockLine) : BlockText :=
  match line.content with
  | none => { t with emptyLines := t.emptyLines ++ line.lineBreak }
  | some content =>
    let blank := content.head?.any isBlank
    let join :=
      if fold && t.lineBreak == ['\n'] && !t.leadingBlank && !blank then
        if t.emptyLines.isEmpty then [' '] else []
      else t.lineBreak
    { text := t.text ++ join ++ t.emptyLines ++ content
      lineBreak := line.lineBreak
      emptyLines := []
      leadingBlank := blank }

/-- The text of a block with the breaks at its end. -/
def BlockText.finish (t : BlockText) : Chomping → List Char
  | .strip => t.text
  | .clip => t.text ++ t.lineBreak
  | .keep => t.text ++ t.lineBreak ++ t.emptyLines

/-- The text of a block behind its bar, inside a collection at column `parent`, and the column
and text behind it. -/
def block? (fold : Bool) (parent : Option Nat) (cs : List Char) :
    Option (List Char × Nat × List Char) := do
  let (chomping, columns, cs) := blockHeader cs
  let cs := cs.dropWhile isBlank
  let cs := if cs.head? == some '#' then cs.dropWhile (!isBreak ·) else cs
  if !atEndOr isBreak cs then none
  let cs := cs.drop 1
  let outer := (parent.map (· + 1)).getD 0
  let indent ← match columns with
    | some n => some ((parent.getD 0) + n)
    | none => (widestIndent? (cs.length + 1) cs).map fun n => max (max n outer) 1
  let (lines, column, rest) ← blockLines? indent (cs.length + 1) cs
  return ((lines.foldl (BlockText.add fold) {}).finish chomping, column, rest)

end Yaml

end PenFilter
