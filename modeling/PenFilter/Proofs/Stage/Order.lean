import PenFilter.Proofs.Stage.Process

/-! # Channels in any order

The channels of a report write to one record and are noted in one sample, and the stack that they
hand on has no influence (`Stage.outcome_foldl_runChannel`).  Two channels write to different
numbers of either, also where they share a pair (`Channel.write_comm`,
`ComputedSample.record_comm`), and so any order of the filters leads to one outcome
(`Stage.foldl_share_eq_of_perm`). -/

namespace PenFilter

theorem Channel.write_comm {c d : Channel} (h : c ≠ d) (r : Report) (v w : Double) :
    d.write (c.write r v) w = c.write (d.write r w) v := by
  obtain ⟨position, pressure, tilt, hoverDistance⟩ := r
  cases c with
  | x | y =>
      cases d with
      | x | y => first | exact absurd rfl h | (cases position <;> rfl)
      | pressure | tiltX | tiltY => rfl
  | pressure =>
      cases d with
      | pressure => exact absurd rfl h
      | x | y | tiltX | tiltY => rfl
  | tiltX | tiltY =>
      cases d with
      | tiltX | tiltY => first | exact absurd rfl h | (cases tilt <;> rfl)
      | x | y | pressure => rfl

theorem ComputedSample.record_comm {c d : Channel} (h : c ≠ d) (s : ComputedSample)
    (v w : Double) : (s.record c v).record d w = (s.record d w).record c v := by
  cases c <;> cases d <;> first | exact absurd rfl h | rfl

namespace Stage

variable {raw : Report} {values : Array Double}

/-! ### Other orders -/

theorem share_comm {f g : ChannelFilter} (h : f.channel ≠ g.channel)
    (o : Report × ComputedSample) :
    share raw values (share raw values o f) g = share raw values (share raw values o g) f := by
  unfold share
  by_cases hf : raw.has f.channel.capability
  · by_cases hg : raw.has g.channel.capability
    · simp only [hf, hg, if_true]
      rw [Channel.write_comm h, ComputedSample.record_comm h]
    · simp only [hf, hg, if_true, if_false, Bool.false_eq_true]
  · simp only [hf, if_false, Bool.false_eq_true]

theorem foldl_share_eq_of_perm {fs gs : List ChannelFilter} (hperm : gs.Perm fs)
    (hfs : (fs.map (·.channel)).Nodup) (o : Report × ComputedSample) :
    gs.foldl (share raw values) o = fs.foldl (share raw values) o := by
  apply hperm.foldl_eq'
  intro f hf g hg o
  by_cases hsame : f = g
  · rw [hsame]
  · have hne : f.channel ≠ g.channel := fun hchannel =>
      hsame (List.inj_on_of_nodup_map hfs (hperm.subset hf) (hperm.subset hg) hchannel)
    exact share_comm hne o

/-! ### Stages with their channels in another order -/

/-- Two stages with the same filters, in two orders, at the same memory and tablet.  Their buffers
may hold anything. -/
structure Reordered (s t : Stage) : Prop where
  tablet : t.tablet = s.tablet
  history : t.history = s.history
  filters : ∃ filters channels, s.filters = some filters ∧ channels.Perm filters.channels ∧
    t.filters = some { filters with channels }

/-- A report leads to one outcome in any order, and again to stages that differ in no more. -/
theorem Reordered.process {s t : Stage} (h : s.Reordered t) (hs : s.WellFormed) (raw : Report) :
    (t.process raw).2 = (s.process raw).2 ∧ (s.process raw).1.Reordered (t.process raw).1 := by
  obtain ⟨htablet, hhistory, filters, channels, hfilters, hperm, hother⟩ := h
  let values := filters.variant.gather raw s.history s.tablet #[]
  let start : Progress := ⟨raw, s.history.lastComputed, s.workspace.stack⟩
  let start' : Progress := ⟨raw, s.history.lastComputed, t.workspace.stack⟩
  have houtcome : (channels.foldl (runChannel raw values) start').outcome =
      (filters.channels.foldl (runChannel raw values) start).outcome := by
    rw [outcome_foldl_runChannel, outcome_foldl_runChannel]
    exact foldl_share_eq_of_perm hperm (hs.nodup_channels hfilters) _
  have hreport := congrArg Prod.fst houtcome
  have hcomputed := congrArg Prod.snd houtcome
  simp only [Stage.process, hfilters, hother, htablet, hhistory]
  rw [Variant.gather_buffer, Variant.gather_buffer _ _ _ _ s.workspace.values]
  refine ⟨hreport, rfl, ?_, filters, channels, rfl, hperm, rfl⟩
  exact congrArg (s.history.update raw) hcomputed

/-- **The order of the channels is immaterial.**  Whatever has happened to a stage, filters that
stand in another order make the same of every report and leave the same memory, now and at all
later reports, since they stand in another order afterwards and differ in nothing else.  Behind
this, values written to two channels leave the same report in either order, finite or not. -/
theorem process_in_any_order (tablet : Tablet) (events : List Event) :
    (∀ t, ((ofTablet tablet).run events).Reordered t → ∀ raw,
      (t.process raw).2 = (((ofTablet tablet).run events).process raw).2 ∧
      (t.process raw).1.history = (((ofTablet tablet).run events).process raw).1.history ∧
      (((ofTablet tablet).run events).process raw).1.Reordered (t.process raw).1) ∧
    ∀ c d : Channel, c ≠ d → ∀ r v w, d.write (c.write r v) w = c.write (d.write r w) v := by
  refine ⟨fun t h raw => ?_, fun c d hne r v w => Channel.write_comm hne r v w⟩
  have hwell : ((ofTablet tablet).run events).WellFormed := (wellFormed_ofTablet tablet).run events
  obtain ⟨hreport, hafter⟩ := h.process hwell raw
  exact ⟨hreport, hafter.history, hafter⟩

/-- The theorem at formulas that exchange the coordinates and read what was computed before, in the
reverse order, and at a value that is not a number beside an infinite one. -/
theorem process_in_any_order_reversed :
    let stage := (ofTablet ⟨.zero, .zero, 0⟩).run
      [.configure { variant := .extended, x := "y", y := "x", pressure := "cx + p" }]
    let reversed : Stage :=
      { stage with filters := stage.filters.map fun f => { f with channels := f.channels.reverse } }
    let raw : Report := { position := some ⟨.ofInt _ 1, .ofInt _ 2⟩, pressure := some 7 }
    stage.Reordered reversed ∧ (reversed.process raw).2 = (stage.process raw).2 ∧
      (stage.process raw).2.position = some ⟨.ofInt _ 2, .ofInt _ 1⟩ ∧
      Channel.y.write (Channel.x.write raw .nan) (.infinity _ true) =
        Channel.x.write (Channel.y.write raw (.infinity _ true)) .nan := by
  intro stage reversed raw
  have hreordered : stage.Reordered reversed := by
    have hready : stage.filters.isSome := by decide +kernel
    obtain ⟨filters, hfilters⟩ := Option.isSome_iff_exists.mp hready
    exact ⟨rfl, rfl, filters, filters.channels.reverse, hfilters, List.reverse_perm _, by
      simp [reversed, hfilters]⟩
  obtain ⟨hprocess, hwrite⟩ := process_in_any_order ⟨.zero, .zero, 0⟩
    [.configure { variant := .extended, x := "y", y := "x", pressure := "cx + p" }]
  exact ⟨hreordered, (hprocess reversed hreordered raw).1, by decide +kernel,
    hwrite .x .y (by decide) raw _ _⟩

end Stage

end PenFilter
