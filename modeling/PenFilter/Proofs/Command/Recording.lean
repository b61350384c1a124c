import PenFilter.Proofs.Command.Replay

/-! # Recordings that a replay reads

What a replay writes is a text that a replay reads: each report stands on a line of its own, and
comes back from it (`onLine?_text`).  So any list of reports comes back in its order from the lines
that it is written on, whatever stage takes it; a stage without filters writes the same text again
(`reportLines_come_back`). -/

namespace PenFilter

/-- A report comes back from its line. -/
theorem Report.onLine?_text {r : Report} (h : r.Rereads) :
    ∃ back, onLine? r.text.toList = some back ∧ r.Same back := by
  unfold onLine?
  rw [r.trimmed_text, String.ofList_toList]
  exact read?_text h

theorem exists_carry_reportLines {reports : List Report} (h : ∀ r ∈ reports, r.Rereads) :
    ∃ back, List.Forall₂ Report.Same reports back ∧
      Carry (textLines (reportLines reports).toList) back := by
  rw [textLines_reportLines]
  induction reports with
  | nil => exact ⟨[], .nil, .blank rfl .nil⟩
  | cons r reports ih =>
      rw [List.forall_mem_cons] at h
      obtain ⟨raw, hline, hsame⟩ := Report.onLine?_text h.1
      obtain ⟨back, hback, hlines⟩ := ih h.2
      exact ⟨raw :: back, .cons hsame hback, .report hline hlines⟩

theorem reportLines_congr {reports others : List Report}
    (h : List.Forall₂ Report.Same reports others) : reportLines reports = reportLines others := by
  unfold reportLines
  congr 1
  induction h with
  | nil => rfl
  | cons hsame _ ih => rw [List.map_cons, List.map_cons, hsame.text_eq, ih]

theorem Stage.outputs_of_filters_eq_none {s : Stage} (h : s.filters = none)
    (raws : List Report) : s.outputs raws = raws := by
  induction raws generalizing s with
  | nil => rfl
  | cons raw raws ih =>
      have hreport : (s.process raw).2 = raw := by simp only [process, h]
      rw [outputs, hreport, ih ((filters_process s raw).trans h)]

/-- **A recording can be replayed.**  Take any list of reports, such that the digits of each finite
coordinate in it are read as the same number.  Of the lines that it is written on, each has the
report in its place on it, with the same measurements and no others; the infinities are exact, and
what is no number is none again.  Every stage takes these reports, one for each line and in their
order, and finds no malformed line.  A stage without filters writes the same text. -/
theorem reportLines_come_back [Libraries] {reports : List Report}
    (h : ∀ r ∈ reports, r.Rereads) :
    ∃ back, List.Forall₂ Report.Same reports back ∧
      (∀ stage : Stage, stage.replay 1 (textLines (reportLines reports).toList) =
        (stage.outputs back, none)) ∧
      ∀ stage : Stage, stage.filters = none →
        stage.replay 1 (textLines (reportLines reports).toList) = (back, none) ∧
        stage.replayText (reportLines reports) = ⟨reportLines reports, none⟩ := by
  obtain ⟨back, hback, hlines⟩ := exists_carry_reportLines h
  have hreplay : ∀ stage : Stage,
      stage.replay 1 (textLines (reportLines reports).toList) = (stage.outputs back, none) :=
    Stage.replay_of_carry hlines 1
  refine ⟨back, hback, hreplay, fun stage hstage => ⟨?_, ?_⟩⟩
  · rw [hreplay, Stage.outputs_of_filters_eq_none hstage]
  · rw [Stage.replayText_of_carry hlines, Stage.outputs_of_filters_eq_none hstage,
      ← reportLines_congr hback]

/-- The theorem at reports with an infinity, with what is no number, with a fraction, and with
nothing at all. -/
theorem reportLines_come_back_three_reports :
    let half : Single := Binary.round _ true 1 (-1)
    let reports : List Report :=
      [{ position := some ⟨half, Binary.infinity _ true⟩, hoverDistance := some 4294967295 }, {},
        { pressure := some 0, tilt := some ⟨Binary.nan _ true, .zero⟩ }]
    let stage := Stage.ofTablet ⟨.zero, .zero, 0⟩
    (∀ r ∈ reports, r.Rereads) ∧
      ∃ back, List.Forall₂ Report.Same reports back ∧
        stage.replay 1 (textLines (reportLines reports).toList) = (back, none) ∧
        stage.replayText (reportLines reports) = ⟨reportLines reports, none⟩ := by
  intro half reports stage
  have hcoordinate : ∀ x ∈ [half, Binary.infinity _ true, Binary.nan _ true, .zero],
      x.isFinite → (Json.ofBinary x).toSingle? = some x := by decide +kernel
  have hreads : ∀ r ∈ reports, r.Rereads := by
    simp only [reports, List.forall_mem_cons]
    refine ⟨⟨?_, nofun⟩, ⟨nofun, nofun⟩, ⟨nofun, ?_⟩, nofun⟩
    · rintro v ⟨⟩
      exact ⟨hcoordinate half (by simp), hcoordinate _ (by simp)⟩
    · rintro v ⟨⟩
      exact ⟨hcoordinate _ (by simp), hcoordinate .zero (by simp)⟩
  obtain ⟨back, hback, -, hpass⟩ := reportLines_come_back hreads
  exact ⟨hreads, back, hback, (hpass stage rfl).1, (hpass stage rfl).2⟩

end PenFilter
