import PenFilter.Command.Result
import PenFilter.Stage

/-! # Replaying recorded reports

`replay` reads reports from lines of JSON, sends them through a stage and writes each result on
a line.  Lines of white space are skipped.  The first line that is no report ends the replay;
what was written before it stays. -/

namespace PenFilter

/-- The lines of a text. -/
def textLines : List Char → List (List Char) := pieces '\n'

/-- The tablet in a file.  The file is read before its suffix is looked at. -/
def Tablet.ofFile [Libraries] (files : Files) (path : String) : Except CommandError Tablet :=
  match files path with
  | .error reason => .error (.unreadableTablet reason)
  | .ok text =>
    let suffix := fileSuffix path
    if suffix = "json" then
      match readJson? text with
      | some tablet => .ok tablet
      | none => .error (.tabletNotJson (Libraries.tabletFault text))
    else if suffix = "yaml" || suffix = "yml" then
      (Libraries.tabletOfYaml text).mapError .tabletNotYaml
    else .error (.unsupportedTabletFormat suffix)

/-- What a stage makes of the reports in lines, the first of which has number `n`, and what is
wrong with the first line that is neither blank nor a report. -/
def Stage.replay [Libraries] (n : Nat) (stage : Stage) :
    List (List Char) → List Report × Option CommandError
  | [] => ([], none)
  | line :: lines =>
    let text := trimmed line
    if text.isEmpty then stage.replay (n + 1) lines
    else match Report.read? (String.ofList text) with
      | none => ([], some (.invalidReport n (Libraries.reportFault (String.ofList text))))
      | some raw =>
        let (stage, report) := stage.process raw
        let (reports, error) := stage.replay (n + 1) lines
        (report :: reports, error)

/-- The stage that a file of settings and a file of a tablet describe. -/
def Stage.ofFiles [Libraries] (files : Files) (settingsPath tabletPath : String) :
    Except CommandError Stage := do
  let settings ← (Settings.ofFile files settingsPath).mapError .settings
  let tablet ← Tablet.ofFile files tabletPath
  match (Stage.ofTablet tablet).configure settings with
  | (_, _, .error e) => .error (.settings e)
  | (stage, _, .ok _) => .ok stage

/-- Reports on lines of their own. -/
def reportLines (reports : List Report) : String :=
  String.join (reports.map fun r => r.text ++ "\n")

/-- The replay of a text. -/
def Stage.replayText [Libraries] (stage : Stage) (text : String) : CommandResult :=
  let (reports, error) := stage.replay 1 (textLines text.toList)
  ⟨reportLines reports, error⟩

/-- The command that replays reports from a file, or from the standard input. -/
def replay [Libraries] (files : Files) (settingsPath tabletPath : String)
    (inputPath : Option String) (stdin : String) : CommandResult :=
  match Stage.ofFiles files settingsPath tabletPath with
  | .error e => .failure e
  | .ok stage => match inputPath with
    | none => stage.replayText stdin
    | some path => match files path with
      | .error reason => .failure (.unreadableInput reason)
      | .ok text => stage.replayText text

end PenFilter
