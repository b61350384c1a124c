import PenFilter.Command.Check
import PenFilter.Command.Eval
import PenFilter.Command.Replay

/-! # Requests

A `Request` is one use of the program: a command with its arguments, and whether a script or a
person asks.  `Request.ofWords?` reads the words of a command line; `Request.respond` answers.

    check SETTINGS
    eval FORMULA [--variant NAME] [--samples N] [--var NAME=VALUE]...
    replay SETTINGS --spec FILE [--input FILE]

The option `--json` asks for a script. -/

namespace PenFilter

inductive Command where
  | check (settingsPath : String)
  | eval (formula : String) (kind : VariantKind) (samples : UInt64) (bindings : List String)
  | replay (settingsPath tabletPath : String) (inputPath : Option String)
deriving DecidableEq, Repr

structure Request where
  command : Command
  audience : Audience
deriving DecidableEq, Repr

/-- The options of a command line and its other words. -/
structure Options where
  audience : Audience := .person
  kind : VariantKind := .basic
  samples : UInt64 := 1
  bindings : List String := []
  tabletPath : Option String := none
  inputPath : Option String := none
  words : List String := []

namespace Options

/-- A variant as it is named in an option, with a hyphen between words. -/
def kind? (s : String) : Option VariantKind :=
  VariantKind.all.find? fun kind =>
    kind.name.toList.map (fun c => if c = '_' then '-' else c) == s.toList

/-- A number of samples in decimal digits. -/
def samples? (s : String) : Option UInt64 :=
  let ds := s.toList
  if ds.isEmpty || !ds.all Char.isDigit then none
  else if Decimal.ofDigits ds < UInt64.size then some (.ofNat (Decimal.ofDigits ds)) else none

/-- The options of a list of words; two dashes alone end them. -/
def read? : Options → List String → Option Options
  | o, [] => some o
  | o, "--" :: words => some { o with words := o.words ++ words }
  | o, "--json" :: words => read? { o with audience := .script } words
  | o, "--variant" :: s :: words => (kind? s).bind fun kind => read? { o with kind } words
  | o, "--samples" :: s :: words => (samples? s).bind fun samples => read? { o with samples } words
  | o, "--var" :: s :: words => read? { o with bindings := o.bindings ++ [s] } words
  | o, "--spec" :: s :: words => read? { o with tabletPath := some s } words
  | o, "--input" :: s :: words => read? { o with inputPath := some s } words
  | o, s :: words =>
    if s.toList.take 2 == ['-', '-'] then none else read? { o with words := o.words ++ [s] } words

/-- The command that the options and words name. -/
def command? (o : Options) : Option Command :=
  match o.words, o.tabletPath with
  | ["check", settings], none => some (.check settings)
  | ["eval", formula], none => some (.eval formula o.kind o.samples o.bindings)
  | ["replay", settings], some tablet => some (.replay settings tablet o.inputPath)
  | _, _ => none

end Options

namespace Request

/-- The request that the words of a command line make. -/
def ofWords? (words : List String) : Option Request := do
  let o ← Options.read? {} words
  return ⟨← o.command?, o.audience⟩

/-- The files that a command may read, in order. -/
def filePaths (r : Request) : List String :=
  match r.command with
  | .check settings => [settings]
  | .eval .. => []
  | .replay settings tablet input => [settings, tablet] ++ input.toList

/-- The command reads the standard input. -/
def readsInput (r : Request) : Bool :=
  match r.command with
  | .replay _ _ none => true
  | _ => false

/-- The outcome of a request. -/
def respond [Libraries] (r : Request) (files : Files) (stdin : String) : Response :=
  let result := match r.command with
    | .check settings => check files settings r.audience
    | .eval formula kind samples bindings => evaluate formula kind samples bindings r.audience
    | .replay settings tablet input => replay files settings tablet input stdin
  result.response r.audience

end Request

/-- What to type. -/
def usage : String :=
  "Usage:\n  check SETTINGS [--json]\n" ++
    "  eval FORMULA [--variant NAME] [--samples N] [--var NAME=VALUE]... [--json]\n" ++
    "  replay SETTINGS --spec FILE [--input FILE] [--json]\n"

end PenFilter
