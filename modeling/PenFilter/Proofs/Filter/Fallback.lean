import PenFilter.Filter.Set
import PenFilter.Proofs.Formula.Recognition
import PenFilter.Proofs.Formula.Resolution

/-! # No formula text stops a filter

Settings are refused for a number of samples or for the length of a formula, and for nothing
else (`Settings.validate_eq_ok_iff`).  The identity of a channel is a variable of every variant
that owns the channel, so that it always compiles (`Program.ofFormula_identity`).  Hence the
filters of all channels exist, each with the program of its formula or with the identity and the
reason for it (`ChannelFilter.compileAll_eq`), and the rejections found on the way are those of
the filters, in their order. -/

namespace PenFilter

namespace Settings

/-! ### What validation checks -/

/-- The number of samples is within its limits where it matters. -/
def CountAllowed (s : Settings) : Prop :=
  s.variant = .multiSample → minSamples ≤ s.samples ∧ s.samples ≤ maxSamples

theorem oversized?_eq_none_iff {s : Settings} {c : Channel} :
    s.oversized? c = none ↔ (s.formula c).utf8ByteSize ≤ maxFormulaSize := by
  unfold oversized?
  simp only
  split
  · simp; omega
  · simp; omega

theorem oversized?_eq_some_iff {s : Settings} {c : Channel} {error : SettingsError} :
    s.oversized? c = some error ↔ maxFormulaSize < (s.formula c).utf8ByteSize ∧
      error = .formulaTooLong c (s.formula c).utf8ByteSize := by
  unfold oversized?
  simp only
  split
  · rename_i h
    simp [h, eq_comm]
  · rename_i h
    simp [h]

theorem validate_of_not_countAllowed {s : Settings} (h : ¬ s.CountAllowed) :
    s.validate = .error (.invalidSampleCount s.samples) := by
  obtain ⟨hvariant, hcount⟩ := Classical.not_imp.mp h
  by_cases hlow : s.samples < minSamples
  · simp [validate, hvariant, hlow]
  · have hhigh : maxSamples < s.samples := by
      rw [← UInt64.not_le]
      exact fun h => hcount ⟨UInt64.not_lt.mp hlow, h⟩
    simp [validate, hvariant, hhigh]

theorem validate_of_countAllowed {s : Settings} (h : s.CountAllowed) :
    s.validate = match s.filterVariant.channels.findSome? s.oversized? with
      | some error => .error error
      | none => .ok () := by
  have hfalse : (s.variant = .multiSample &&
      (s.samples < minSamples || maxSamples < s.samples)) = false := by
    by_cases hv : s.variant = .multiSample
    · have hcount := h hv
      simp [UInt64.not_lt.mpr hcount.1, UInt64.not_lt.mpr hcount.2]
    · simp [hv]
  simp only [validate, hfalse]
  rfl

theorem validate_eq_ok_iff {s : Settings} :
    s.validate = .ok () ↔
      s.CountAllowed ∧
        ∀ c ∈ s.filterVariant.channels, (s.formula c).utf8ByteSize ≤ maxFormulaSize := by
  by_cases hcount : s.CountAllowed
  · simp only [hcount, true_and, ← oversized?_eq_none_iff, ← List.findSome?_eq_none_iff]
    rw [validate_of_countAllowed hcount]
    cases s.filterVariant.channels.findSome? s.oversized? with
    | none => simp
    | some error => simp
  · simp [hcount, validate_of_not_countAllowed hcount]

/-- The first formula that is too long is the one that is reported. -/
theorem validate_of_first_oversized {s : Settings} (hcount : s.CountAllowed)
    {before after : List Channel} {c : Channel}
    (hchannels : s.filterVariant.channels = before ++ c :: after)
    (hbefore : ∀ d ∈ before, (s.formula d).utf8ByteSize ≤ maxFormulaSize)
    (hc : maxFormulaSize < (s.formula c).utf8ByteSize) :
    s.validate = .error (.formulaTooLong c (s.formula c).utf8ByteSize) := by
  have hfirst : s.filterVariant.channels.findSome? s.oversized? =
      some (.formulaTooLong c (s.formula c).utf8ByteSize) :=
    List.findSome?_eq_some_iff.mpr ⟨before, c, after, hchannels,
      oversized?_eq_some_iff.mpr ⟨hc, rfl⟩,
      fun d hd => oversized?_eq_none_iff.mpr (hbefore d hd)⟩
  rw [validate_of_countAllowed hcount, hfirst]

theorem validate_ne_fallbackFailed {s : Settings} {c : Channel} {error : FormulaError} :
    s.validate ≠ .error (.fallbackFailed c error) := by
  intro h
  by_cases hcount : s.CountAllowed
  · rw [validate_of_countAllowed hcount] at h
    cases hfirst : s.filterVariant.channels.findSome? s.oversized? with
    | none => simp [hfirst] at h
    | some cause =>
        obtain ⟨d, -, hd⟩ := List.exists_of_findSome?_eq_some hfirst
        simp only [hfirst, Except.error.injEq] at h
        subst h
        rw [oversized?_eq_some_iff] at hd
        cases hd.2
  · rw [validate_of_not_countAllowed hcount] at h
    cases h

end Settings

/-! ### The identity of a channel -/

theorem Schema.mem_insertName {names : List String} {name other : String} :
    other ∈ Schema.insertName names name ↔ other ∈ names ∨ other = name := by
  unfold Schema.insertName
  split
  · rename_i hmem
    constructor
    · exact .inl
    · rintro (h | rfl)
      · exact h
      · exact hmem
  · simp

theorem Schema.mem_names_ofList {names : List String} {name : String} :
    name ∈ (Schema.ofList names).names ↔ name ∈ names := by
  have hfold : ∀ start : List String,
      name ∈ names.foldl Schema.insertName start ↔ name ∈ start ∨ name ∈ names := by
    induction names with
    | nil => simp
    | cons other names ih =>
        intro start
        rw [List.foldl_cons, ih, Schema.mem_insertName, List.mem_cons, or_assoc]
  simpa [Schema.ofList] using hfold []

theorem Schema.exists_slotOf? {schema : Schema} {name : String} (h : name ∈ schema.names) :
    ∃ slot, schema.slotOf? name = some slot := by
  obtain ⟨slot, hslot⟩ := List.mem_iff_getElem?.mp h
  exact ⟨slot, Schema.slotOf?_eq_some_iff.mpr hslot⟩

theorem Token.scan_identity (c : Channel) :
    Token.scan c.identity = .ok [⟨.name c.identity, 0⟩] := by
  cases c <;> rfl

theorem Variant.identity_mem_schema {v : Variant} {c : Channel} (h : c ∈ v.channels) :
    c.identity ∈ v.schema.names := by
  rw [Variant.schema, Schema.mem_names_ofList]
  cases v with
  | basic | multiSample n =>
      have hxy : c = .x ∨ c = .y := by simpa [Variant.channels] using h
      rcases hxy with rfl | rfl <;>
        simp [Variant.names, Variant.basicNames, Channel.identity]
  | extended => cases c <;> decide

theorem Expr.parse_identity {schema : Schema} {c : Channel} {slot : Nat}
    (h : schema.slotOf? c.identity = some slot) :
    Expr.parse schema c.identity = .ok (.var c.identity slot) := by
  have hsum : Grammar.Sum schema 1 ([⟨.name c.identity, 0⟩].map Placed.token)
      (.var c.identity slot) :=
    .product (.signed (.power (.primary (.var h))))
  have hread := Expr.ofTokens_of_derived (m := 1) (by decide) hsum (by simp [Expr.operations])
  rw [Expr.parse, Token.scan_identity]
  exact hread

theorem Program.ofFormula_identity [Arithmetic] {v : Variant} {c : Channel}
    (h : c ∈ v.channels) : ∃ p, Program.ofFormula v.schema c.identity = .ok p := by
  obtain ⟨slot, hslot⟩ := Schema.exists_slotOf? (Variant.identity_mem_schema h)
  rw [Program.ofFormula_eq, Expr.parse_identity hslot]
  exact ⟨_, rfl⟩

/-! ### The filters of all channels -/

namespace ChannelFilter

/-- The filter of a channel runs the program of its formula if there is one, and otherwise the
identity, with the reason beside it; the reason is that the formula cannot be read. -/
structure Serves (schema : Schema) (s : Settings) (f : ChannelFilter) : Prop where
  formula : f.formula = s.formula f.channel
  arity : f.program.arity = schema.size
  accepted : ∀ p, Program.ofFormula schema f.formula = .ok p ↔ f.rejected = none ∧ f.program = p
  refused : ∀ error, Program.ofFormula schema f.formula = .error error ↔ f.rejected = some error
  replaced : ∀ error, f.rejected = some error →
    (∃ cause, error = .parse cause) ∧ Program.ofFormula schema f.channel.identity = .ok f.program

/-- The formula that runs for a channel: the one of the settings, or the identity in its place. -/
def active (f : ChannelFilter) : String :=
  if f.rejected.isSome then f.channel.identity else f.formula

variable {schema : Schema} {s : Settings}

theorem Serves.ofFormula_active {f : ChannelFilter} (h : f.Serves schema s) :
    Program.ofFormula schema f.active = .ok f.program := by
  unfold active
  cases hrejected : f.rejected with
  | none => exact (h.accepted f.program).mpr ⟨hrejected, rfl⟩
  | some error => exact (h.replaced error hrejected).2

theorem compile_eq {c : Channel} (h : ∃ p, Program.ofFormula schema c.identity = .ok p) :
    ∃ f, compile schema c (s.formula c) = (f.rejection?.toList, .ok f) ∧ f.channel = c ∧
      f.Serves schema s := by
  obtain ⟨p, hp⟩ := h
  cases hformula : Expr.parse schema (s.formula c) with
  | ok e =>
      have hok := Program.ofFormula_eq schema (s.formula c)
      rw [hformula] at hok
      refine ⟨⟨c, s.formula c, ⟨s.formula c, schema.size, e.emit, e.room⟩, none⟩, ?_, rfl, ?_⟩
      · simp [compile, hok, rejection?]
      · exact ⟨rfl, rfl, by simp [hok], by simp [hok], by simp⟩
  | error cause =>
      have herror := Program.ofFormula_eq schema (s.formula c)
      rw [hformula] at herror
      refine ⟨⟨c, s.formula c, p, some (.parse cause)⟩, ?_, rfl, ?_⟩
      · simp [compile, herror, hp, rejection?]
      · exact ⟨rfl, Program.arity_of_ofFormula hp, by simp [herror], by simp [herror],
          by simp [hp]⟩

/-- One filter for every channel, and the rejections in the same order. -/
theorem compileAll_eq {cs : List Channel}
    (h : ∀ c ∈ cs, ∃ p, Program.ofFormula schema c.identity = .ok p) :
    ∃ fs, compileAll schema s cs = (fs.filterMap rejection?, .ok fs) ∧
      fs.map channel = cs ∧ ∀ f ∈ fs, f.Serves schema s := by
  induction cs with
  | nil => exact ⟨[], rfl, rfl, by simp⟩
  | cons c cs ih =>
      obtain ⟨f, hf, hchannel, hserves⟩ := compile_eq (s := s) (h c (by simp))
      obtain ⟨fs, hfs, hchannels, hall⟩ := ih fun d hd => h d (by simp [hd])
      refine ⟨f :: fs, ?_, by rw [List.map_cons, hchannel, hchannels], ?_⟩
      · simp only [compileAll, hf, hfs, Except.map]
        cases hr : f.rejection? with
        | none => simp [hr]
        | some rejection => simp [hr]
      · intro g hg
        rcases List.mem_cons.mp hg with rfl | hg
        · exact hserves
        · exact hall g hg

end ChannelFilter

namespace FilterSet

/-- Settings that pass validation make a set of filters, whatever their formulas are. -/
theorem compile_of_validate {s : Settings} (h : s.validate = .ok ()) :
    ∃ set, compile s = (set.rejections, .ok set) ∧ set.variant = s.filterVariant ∧
      set.channels.map (·.channel) = s.filterVariant.channels ∧
      (∀ f ∈ set.channels, f.Serves s.filterVariant.schema s) ∧
      set.maxStack = (set.channels.map (·.program.maxStack)).max?.getD 0 := by
  obtain ⟨fs, hfs, hchannels, hserves⟩ :=
    ChannelFilter.compileAll_eq (s := s) fun c (hc : c ∈ s.filterVariant.channels) =>
      Program.ofFormula_identity hc
  refine ⟨⟨s.filterVariant, s.fingerprint, fs, (fs.map (·.program.maxStack)).max?.getD 0⟩, ?_, rfl,
    hchannels, hserves, rfl⟩
  simp [compile, h, hfs, rejections, Except.map]

theorem compile_of_validate_error {s : Settings} {error : SettingsError}
    (h : s.validate = .error error) : compile s = ([], .error error) := by
  simp [compile, h]

theorem validate_of_compile {s : Settings} {set : FilterSet} (h : (compile s).2 = .ok set) :
    s.validate = .ok () := by
  cases hvalid : s.validate with
  | ok u => rfl
  | error error =>
      rw [compile_of_validate_error hvalid] at h
      cases h

/-- A set that was compiled has a filter for every channel, and what was reported is what its
filters keep. -/
theorem serves_of_compile {s : Settings} {set : FilterSet} (h : (compile s).2 = .ok set) :
    set.variant = s.filterVariant ∧
      set.channels.map (·.channel) = s.filterVariant.channels ∧
      (∀ f ∈ set.channels, f.Serves s.filterVariant.schema s) ∧
      (compile s).1 = set.rejections := by
  obtain ⟨set', hset', hvariant, hchannels, hserves, -⟩ :=
    compile_of_validate (validate_of_compile h)
  rw [hset'] at h ⊢
  obtain rfl := Except.ok.inj h
  exact ⟨hvariant, hchannels, hserves, rfl⟩

theorem maxStack_of_compile {s : Settings} {set : FilterSet} (h : (compile s).2 = .ok set) :
    set.maxStack = (set.channels.map (·.program.maxStack)).max?.getD 0 := by
  obtain ⟨set', hset', -, -, -, hdeepest⟩ := compile_of_validate (validate_of_compile h)
  rw [hset'] at h
  obtain rfl := Except.ok.inj h
  exact hdeepest

theorem channels_of_compile {s : Settings} {set : FilterSet} (h : (compile s).2 = .ok set) :
    set.channels.map (·.channel) = set.variant.channels := by
  obtain ⟨hvariant, hchannels, -⟩ := serves_of_compile h
  rw [hvariant, hchannels]

theorem exists_compile_iff {s : Settings} :
    (∃ set, (compile s).2 = .ok set) ↔ s.CountAllowed ∧
      ∀ c ∈ s.filterVariant.channels, (s.formula c).utf8ByteSize ≤ maxFormulaSize := by
  rw [← Settings.validate_eq_ok_iff]
  constructor
  · rintro ⟨set, hset⟩
    exact validate_of_compile hset
  · intro hvalid
    obtain ⟨set, hset, -⟩ := compile_of_validate hvalid
    exact ⟨set, by rw [hset]⟩

/-- No identity is ever refused. -/
theorem compile_ne_fallbackFailed (s : Settings) (c : Channel) (error : FormulaError) :
    (compile s).2 ≠ .error (.fallbackFailed c error) := by
  intro h
  cases hvalid : s.validate with
  | ok u =>
      obtain ⟨set, hset, -⟩ := compile_of_validate hvalid
      rw [hset] at h
      cases h
  | error cause =>
      rw [compile_of_validate_error hvalid] at h
      obtain rfl := Except.error.inj h
      exact Settings.validate_ne_fallbackFailed hvalid

/-- **Every accepted set of settings makes a complete set of filters.**  Compiling succeeds
exactly when the number of samples and the lengths of the formulas are within their limits; a
failure names the number of samples first and then the first formula that is too long, and
nothing has been reported by then.  A set has one filter for each channel of the variant, in
order, and exactly the rejections of the filters are reported, in that order. -/
theorem compile_mandatory_fallback (s : Settings) :
    ((∃ set, (compile s).2 = .ok set) ↔ s.CountAllowed ∧
      ∀ c ∈ s.filterVariant.channels, (s.formula c).utf8ByteSize ≤ maxFormulaSize) ∧
    (¬ s.CountAllowed → compile s = ([], .error (.invalidSampleCount s.samples))) ∧
    (s.CountAllowed → ∀ before c after, s.filterVariant.channels = before ++ c :: after →
      (∀ d ∈ before, (s.formula d).utf8ByteSize ≤ maxFormulaSize) →
      maxFormulaSize < (s.formula c).utf8ByteSize →
      compile s = ([], .error (.formulaTooLong c (s.formula c).utf8ByteSize))) ∧
    (∀ c error, (compile s).2 ≠ .error (.fallbackFailed c error)) ∧
    ∀ set, (compile s).2 = .ok set →
      set.variant = s.filterVariant ∧
      set.channels.map (·.channel) = s.filterVariant.channels ∧
      (∀ f ∈ set.channels, f.Serves s.filterVariant.schema s) ∧
      (compile s).1 = set.channels.filterMap fun f =>
        f.rejected.map fun error => ⟨f.channel, f.formula, error⟩ := by
  refine ⟨exists_compile_iff, ?_, ?_, compile_ne_fallbackFailed s, ?_⟩
  · intro hcount
    exact compile_of_validate_error (Settings.validate_of_not_countAllowed hcount)
  · intro hcount before c after hchannels hbefore hc
    exact compile_of_validate_error
      (Settings.validate_of_first_oversized hcount hchannels hbefore hc)
  · intro set hset
    exact serves_of_compile hset

/-- The theorem at a formula that ends too early, at a count of no samples and at a formula of
one byte too many. -/
theorem compile_faulty_settings :
    (∃ set, compile { x := "(" } = ([⟨.x, "(", .parse (.unexpectedEnd .operand)⟩], .ok set) ∧
      set.channels.map (·.channel) = [.x, .y]) ∧
    compile { variant := .multiSample, samples := 0 } = ([], .error (.invalidSampleCount 0)) ∧
    compile { y := String.ofList (List.replicate 4097 'x') } =
      ([], .error (.formulaTooLong .y 4097)) := by
  refine ⟨?_, ?_, ?_⟩
  · have hfallback := compile_mandatory_fallback { x := "(" }
    obtain ⟨set, hset⟩ := hfallback.1.mpr ⟨nofun, by decide⟩
    have hreported : (compile { x := "(" }).1 =
        [⟨.x, "(", .parse (.unexpectedEnd .operand)⟩] := by decide
    exact ⟨set, Prod.ext hreported hset, (hfallback.2.2.2.2 set hset).2.1⟩
  · have hcount : ¬ Settings.CountAllowed { variant := .multiSample, samples := 0 } := by
      intro hallowed
      exact absurd (hallowed rfl).1 (by decide)
    exact (compile_mandatory_fallback _).2.1 hcount
  · have hsize : ∀ n, (String.ofList (List.replicate n 'x')).utf8ByteSize = n := by
      intro n
      induction n with
      | zero => rfl
      | succ n ih =>
          rw [List.replicate_succ, String.ofList_cons, String.utf8ByteSize_append, ih,
            String.utf8ByteSize_singleton, Nat.add_comm]
          rfl
    have hlong := (compile_mandatory_fallback
      { y := String.ofList (List.replicate 4097 'x') }).2.2.1 nofun [.x] .y [] rfl
      (by decide) (by rw [Settings.formula, hsize]; decide)
    rwa [Settings.formula, hsize] at hlong

end FilterSet

end PenFilter
