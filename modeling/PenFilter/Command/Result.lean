import PenFilter.Command.Error

/-! # What a command prints

A command prints a text and may then fail.  `CommandResult.response` adds how the failure is
shown: to scripts as a JSON object on standard output, to people on standard error.  To scripts
the fallbacks of a check are no error of their own, since the report before it lists them. -/

namespace PenFilter

/-- Whether a command answers a script or a person. -/
inductive Audience where
  | script | person
deriving DecidableEq, Repr

structure CommandResult where
  printed : String
  error : Option CommandError := none
deriving DecidableEq

/-- The visible outcome of a command. -/
structure Response where
  exit : Nat
  stdout : String
  stderr : String
deriving DecidableEq, Repr

namespace CommandResult

def failure (error : CommandError) : CommandResult := ⟨"", some error⟩

/-- A value on lines of its own. -/
def ofJson (v : Json) : CommandResult := { printed := v.pretty ++ "\n" }

/-- The result with its failure shown. -/
def response (r : CommandResult) (audience : Audience) : Response :=
  match r.error, audience with
  | none, _ => ⟨0, r.printed, ""⟩
  | some e, .person => ⟨e.exitCode, r.printed, e.text⟩
  | some (.channelsFellBack n), .script =>
    ⟨(CommandError.channelsFellBack n).exitCode, r.printed, ""⟩
  | some e, .script => ⟨e.exitCode, r.printed ++ e.toJson.pretty ++ "\n", ""⟩

end CommandResult

end PenFilter
