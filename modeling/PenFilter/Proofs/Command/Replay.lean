import PenFilter.Command.Request
import PenFilter.Proofs.Report
import PenFilter.Proofs.Stage.Memory

/-! # What a replay writes

A line is blank, or has a report on it, or is malformed (`Malformed`).  A replay takes the reports
one by one up to the first malformed line (`Stage.replay_append`), and writes what the stage makes
of each of them on a line of its own (`Stage.Writes`).  What it has written by then stays, and the
number of the line is reported (`replay_until_malformed`). -/

namespace PenFilter

/-! ### Lines -/

theorem toList_reportLines_cons (r : Report) (reports : List Report) :
    (reportLines (r :: reports)).toList =
      r.text.toList ++ '\n' :: (reportLines reports).toList := by
  simp [reportLines]

/-- Each report has a line of its own; behind the last one comes an empty line. -/
theorem textLines_reportLines (reports : List Report) :
    textLines (reportLines reports).toList = reports.map (·.text.toList) ++ [[]] := by
  unfold textLines
  induction reports with
  | nil => rfl
  | cons r reports ih =>
      rw [toList_reportLines_cons, pieces_append r.newline_notMem_text, ih]
      rfl

/-- The report on a line, with white space around it. -/
def Report.onLine? (line : List Char) : Option Report := read? (String.ofList (trimmed line))

/-- A line that is neither blank nor a report. -/
def Malformed (line : List Char) : Prop := trimmed line ≠ [] ∧ Report.onLine? line = none

instance : DecidablePred Malformed := fun line =>
  inferInstanceAs (Decidable (trimmed line ≠ [] ∧ Report.onLine? line = none))

/-- Each line is blank or has a report on it; these are the reports, in their order. -/
inductive Carry : List (List Char) → List Report → Prop
  | nil : Carry [] []
  | blank {line : List Char} {lines : List (List Char)} {raws : List Report} :
    trimmed line = [] → Carry lines raws → Carry (line :: lines) raws
  | report {line : List Char} {raw : Report} {lines : List (List Char)} {raws : List Report} :
    Report.onLine? line = some raw → Carry lines raws → Carry (line :: lines) (raw :: raws)

theorem Report.filled_of_onLine? {line : List Char} {raw : Report} (h : onLine? line = some raw) :
    trimmed line ≠ [] := by
  intro hblank
  have hnone : read? (String.ofList []) = none := by decide
  rw [onLine?, hblank, hnone] at h
  cases h

/-- Lines that are not malformed have reports on them, unless they are blank. -/
theorem exists_carry {lines : List (List Char)} (h : ∀ line ∈ lines, ¬ Malformed line) :
    ∃ raws, Carry lines raws := by
  induction lines with
  | nil => exact ⟨[], .nil⟩
  | cons line lines ih =>
      rw [List.forall_mem_cons] at h
      obtain ⟨raws, hraws⟩ := ih h.2
      by_cases hblank : trimmed line = []
      · exact ⟨raws, .blank hblank hraws⟩
      · obtain ⟨raw, hraw⟩ : ∃ raw, Report.onLine? line = some raw := by
          rw [← Option.isSome_iff_exists, Option.isSome_iff_ne_none]
          exact fun hnone => h.1 ⟨hblank, hnone⟩
        exact ⟨raw :: raws, .report hraw hraws⟩

/-! ### What a stage makes of reports -/

namespace Stage

/-- What a stage passes on for reports that it takes one after the other. -/
def outputs (s : Stage) : List Report → List Report
  | [] => []
  | raw :: raws => (s.process raw).2 :: (s.process raw).1.outputs raws

variable {s : Stage}

theorem length_outputs (s : Stage) (raws : List Report) :
    (s.outputs raws).length = raws.length := by
  induction raws generalizing s with
  | nil => rfl
  | cons raw raws ih => rw [outputs, List.length_cons, List.length_cons, ih]

theorem outputs_append (s : Stage) (raws more : List Report) :
    s.outputs (raws ++ more) = s.outputs raws ++ (s.run (raws.map .process)).outputs more := by
  induction raws generalizing s with
  | nil => rfl
  | cons raw raws ih =>
      rw [List.cons_append, outputs, outputs, ih, List.cons_append]
      rfl

/-- A report is taken by the stage that has taken all the earlier ones. -/
theorem getElem?_outputs (s : Stage) {raws : List Report} {i : Nat} {raw : Report}
    (h : raws[i]? = some raw) :
    (s.outputs raws)[i]? = some ((s.run ((raws.take i).map .process)).process raw).2 := by
  obtain ⟨hlt, rfl⟩ := List.getElem?_eq_some_iff.mp h
  have hsplit : raws = raws.take i ++ raws[i] :: raws.drop (i + 1) := by
    rw [← List.drop_eq_getElem_cons hlt, List.take_append_drop]
  have hlength : (s.outputs (raws.take i)).length = i := by
    rw [length_outputs, List.length_take]
    omega
  conv_lhs => rw [hsplit]
  rw [outputs_append, List.getElem?_append_right (by omega), hlength, Nat.sub_self]
  rfl

/-! ### Lines, one after the other -/

section

variable [Libraries]

theorem replay_blank {line : List Char} (h : trimmed line = []) (n : Nat) (s : Stage)
    (lines : List (List Char)) : s.replay n (line :: lines) = s.replay (n + 1) lines := by
  simp [replay, h]

theorem replay_report {line : List Char} {raw : Report} (h : Report.onLine? line = some raw)
    (n : Nat) (s : Stage) (lines : List (List Char)) :
    s.replay n (line :: lines) =
      ((s.process raw).2 :: ((s.process raw).1.replay (n + 1) lines).1,
        ((s.process raw).1.replay (n + 1) lines).2) := by
  have hfilled := Report.filled_of_onLine? h
  rw [Report.onLine?] at h
  simp [replay, hfilled, h]

theorem replay_malformed {line : List Char} (h : Malformed line) (n : Nat) (s : Stage)
    (lines : List (List Char)) :
    s.replay n (line :: lines) =
      ([], some (.invalidReport n (Libraries.reportFault (String.ofList (trimmed line))))) := by
  obtain ⟨hfilled, hnone⟩ := h
  rw [Report.onLine?] at hnone
  simp [replay, hfilled, hnone]

/-- The reports on the first lines are taken one by one, and the lines behind them by the stage that
has taken these reports. -/
theorem replay_append {lines : List (List Char)} {raws : List Report} (h : Carry lines raws)
    (n : Nat) (s : Stage) (rest : List (List Char)) :
    s.replay n (lines ++ rest) =
      (s.outputs raws ++ ((s.run (raws.map .process)).replay (n + lines.length) rest).1,
        ((s.run (raws.map .process)).replay (n + lines.length) rest).2) := by
  induction h generalizing n s with
  | nil => rfl
  | @blank line lines raws hblank _ ih =>
      rw [List.cons_append, replay_blank hblank, ih, List.length_cons, Nat.add_right_comm]
      rfl
  | @report line raw lines raws hline _ ih =>
      rw [List.cons_append, replay_report hline, ih, List.length_cons, Nat.add_right_comm]
      rfl

theorem replay_of_carry {lines : List (List Char)} {raws : List Report} (h : Carry lines raws)
    (n : Nat) (s : Stage) : s.replay n lines = (s.outputs raws, none) := by
  have happend := replay_append h n s []
  rw [List.append_nil] at happend
  rw [happend, replay, List.append_nil]

end

/-- The stage takes the reports on lines, and the text has one line for each line that is not blank,
with what the stage makes of the report there when it has taken the earlier ones. -/
structure Writes (s : Stage) (lines : List (List Char)) (raws written : List Report)
    (printed : String) : Prop where
  reports : Carry lines raws
  length : written.length = raws.length
  outputs : ∀ i raw, raws[i]? = some raw →
    written[i]? = some ((s.run ((raws.take i).map .process)).process raw).2
  text : printed = reportLines written
  framed : textLines printed.toList = written.map (·.text.toList) ++ [[]]

theorem writes_outputs {lines : List (List Char)} {raws : List Report} (h : Carry lines raws)
    (s : Stage) : s.Writes lines raws (s.outputs raws) (reportLines (s.outputs raws)) where
  reports := h
  length := s.length_outputs raws
  outputs _ _ hraw := s.getElem?_outputs hraw
  text := rfl
  framed := textLines_reportLines _

/-! ### The replay of a text -/

variable [Libraries]

theorem replayText_of_malformed {text : String} {before after : List (List Char)}
    {line : List Char} (htext : textLines text.toList = before ++ line :: after)
    (hline : Malformed line) {raws : List Report} (hraws : Carry before raws) (s : Stage) :
    s.replayText text =
      ⟨reportLines (s.outputs raws), some (.invalidReport (before.length + 1)
        (Libraries.reportFault (String.ofList (trimmed line))))⟩ := by
  rw [replayText, htext, replay_append hraws, replay_malformed hline]
  simp [Nat.add_comm 1]

theorem replayText_of_carry {text : String} {raws : List Report}
    (hraws : Carry (textLines text.toList) raws) (s : Stage) :
    s.replayText text = ⟨reportLines (s.outputs raws), none⟩ := by
  rw [replayText, replay_of_carry hraws]

theorem ofFiles_eq {files : Files} {settingsPath tabletPath : String} {settings : Settings}
    {tablet : Tablet} (hsettings : Settings.ofFile files settingsPath = .ok settings)
    (hvalid : settings.validate = .ok ()) (htablet : Tablet.ofFile files tabletPath = .ok tablet) :
    ofFiles files settingsPath tabletPath = .ok ((ofTablet tablet).run [.configure settings]) := by
  obtain ⟨filters, hcompile, -⟩ := FilterSet.compile_of_validate hvalid
  have hconfigure : (ofTablet tablet).configure settings = _ := recompile_of_ok hcompile
  have hrun : (ofTablet tablet).run [.configure settings] =
      ((ofTablet tablet).configure settings).1 := rfl
  simp only [ofFiles, hsettings, htablet, Except.mapError, bind, Except.bind, hrun, hconfigure]

end Stage

section

variable [Libraries]

/-- The command replays the text of the file that it is given, or of the standard input. -/
theorem replay_eq_replayText {files : Files} {settingsPath tabletPath : String}
    {inputPath : Option String} {stdin input : String} {stage : Stage}
    (hstage : Stage.ofFiles files settingsPath tabletPath = .ok stage)
    (hinput : inputPath.elim (.ok stdin) files = .ok input) :
    replay files settingsPath tabletPath inputPath stdin = stage.replayText input := by
  unfold replay
  rw [hstage]
  cases inputPath with
  | none =>
      cases hinput
      rfl
  | some path =>
      have hread : files path = .ok input := hinput
      dsimp only
      rw [hread]

/-- **A replay handles the reports before the first line that is malformed.**  Take files with
settings that pass validation and with a tablet, and a text from a file or from the standard input.
If the text has a malformed line, the first one with number `k`, then what comes of the reports on
the lines before it is written, and stays so; the error names `k`, with what the reader says of the
line as its cause, and the exit code is 5.  If there is no malformed line, then what comes of all
reports is written, and the exit code is 0.  Blank lines are counted and write nothing. -/
theorem replay_until_malformed {files : Files} {settingsPath tabletPath : String}
    {inputPath : Option String} {stdin input : String} {settings : Settings} {tablet : Tablet}
    (hsettings : Settings.ofFile files settingsPath = .ok settings)
    (hvalid : settings.validate = .ok ()) (htablet : Tablet.ofFile files tabletPath = .ok tablet)
    (hinput : inputPath.elim (.ok stdin) files = .ok input) :
    let stage := (Stage.ofTablet tablet).run [.configure settings]
    let result := replay files settingsPath tabletPath inputPath stdin
    let response (audience : Audience) :=
      (Request.mk (.replay settingsPath tabletPath inputPath) audience).respond files stdin
    (∀ before line after, textLines input.toList = before ++ line :: after →
      (∀ l ∈ before, ¬ Malformed l) → Malformed line →
      ∃ raws written, stage.Writes before raws written result.printed ∧
        result.error = some (.invalidReport (before.length + 1)
          (Libraries.reportFault (String.ofList (trimmed line)))) ∧
        ∀ audience, (response audience).exit = 5 ∧
          ∃ more, (response audience).stdout = result.printed ++ more) ∧
    ((∀ line ∈ textLines input.toList, ¬ Malformed line) →
      ∃ raws written, stage.Writes (textLines input.toList) raws written result.printed ∧
        result.error = none ∧ ∀ audience, response audience = ⟨0, result.printed, ""⟩) := by
  intro stage result response
  have hresult : result = stage.replayText input :=
    replay_eq_replayText (Stage.ofFiles_eq hsettings hvalid htablet) hinput
  have hresponse : ∀ audience, response audience = result.response audience := fun _ => rfl
  refine ⟨fun before line after hlines hbefore hline => ?_, fun hall => ?_⟩
  · obtain ⟨raws, hraws⟩ := exists_carry hbefore
    rw [Stage.replayText_of_malformed hlines hline hraws] at hresult
    refine ⟨raws, stage.outputs raws, ?_, ?_, fun audience => ?_⟩
    · rw [hresult]
      exact Stage.writes_outputs hraws stage
    · rw [hresult]
    · rw [hresponse, hresult]
      cases audience with
      | person => exact ⟨rfl, "", String.append_empty.symm⟩
      | script => exact ⟨rfl, _, String.append_assoc⟩
  · obtain ⟨raws, hraws⟩ := exists_carry hall
    rw [Stage.replayText_of_carry hraws] at hresult
    refine ⟨raws, stage.outputs raws, ?_, ?_, fun audience => ?_⟩
    · rw [hresult]
      exact Stage.writes_outputs hraws stage
    · rw [hresult]
    · rw [hresponse, hresult]
      rfl

end

/-- The theorem at a text with a blank line and a line that is no report in its midst. -/
theorem replay_until_malformed_third_line :
    let files : Files := fun path =>
      if path = "s.json" then .ok "\x7b\"x\": \"x + lx\"\x7d"
      else .ok "\x7b\"max_x\": 1, \"max_y\": 1\x7d"
    let settings : Settings := { x := "x + lx" }
    let tablet : Tablet := ⟨.ofInt _ 1, .ofInt _ 1, 0⟩
    let line := "\x7b\"pressure\": 7\x7d".toList
    let stdin := "\x7b\"pressure\": 7\x7d\n \noops\n\x7b\x7d"
    let stage := (Stage.ofTablet tablet).run [.configure settings]
    let result := replay files "s.json" "t.json" none stdin
    Settings.ofFile files "s.json" = .ok settings ∧ settings.validate = .ok () ∧
      Tablet.ofFile files "t.json" = .ok tablet ∧
      ∃ raws written, stage.Writes [line, [' ']] raws written result.printed ∧
        result.error = some (.invalidReport 3 "not a report") := by
  intro files settings tablet line stdin stage result
  have hsettings : Settings.ofFile files "s.json" = .ok settings := by decide +kernel
  have hvalid : settings.validate = .ok () := by decide +kernel
  have htablet : Tablet.ofFile files "t.json" = .ok tablet := by decide +kernel
  have hlines : textLines stdin.toList = [line, [' ']] ++ "oops".toList :: ["\x7b\x7d".toList] := by
    decide +kernel
  have hbefore : ∀ l ∈ [line, [' ']], ¬ Malformed l := by decide +kernel
  have hline : Malformed "oops".toList := by decide +kernel
  have hinput : (none : Option String).elim (.ok stdin) files = .ok stdin := rfl
  obtain ⟨raws, written, hwrites, herror, -⟩ :=
    (replay_until_malformed hsettings hvalid htablet hinput).1 _ _ _ hlines hbefore hline
  exact ⟨hsettings, hvalid, htablet, raws, written, hwrites, herror⟩

end PenFilter
