import PenFilter.Command.Request

/-! # The program

Reads what a request needs, prints the answer and exits with its code.  A command line that is
no request is answered with the usage. -/

namespace PenFilter

/-- What the system says about a file that cannot be read. -/
def systemReason : IO.Error → String
  | .noFileOrDirectory .. => "No such file or directory (os error 2)"
  | e => e.toString

/-- The content of a file or the reason why there is none. -/
def readFile (path : String) : IO (Except String String) := do
  try
    return .ok (← IO.FS.readFile path)
  catch e =>
    return .error (systemReason e)

/-- Everything up to the end of a stream. -/
partial def readRest (stream : IO.FS.Stream) (before : String) : IO String := do
  let line ← stream.getLine
  if line.isEmpty then return before else readRest stream (before ++ line)

/-- Reads what a request needs and answers it. -/
def serve (r : Request) : IO Response := do
  let contents ← r.filePaths.mapM fun path => return (path, ← readFile path)
  let files : Files := fun path => (contents.lookup path).getD (.error "not read")
  let input ← if r.readsInput then readRest (← IO.getStdin) "" else pure ""
  return r.respond files input

end PenFilter

def main (words : List String) : IO UInt32 := do
  match PenFilter.Request.ofWords? words with
  | none =>
    IO.eprint PenFilter.usage
    return 2
  | some request =>
    let response ← PenFilter.serve request
    IO.print response.stdout
    IO.eprint response.stderr
    return UInt32.ofNat response.exit
