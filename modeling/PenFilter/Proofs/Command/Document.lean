import PenFilter.Command.Request
import PenFilter.Proofs.Json.Pretty
import PenFilter.Proofs.Json.Record
import PenFilter.Stage.Snapshot

/-! # One document for a script

Whatever becomes of a check or of an evaluation, a script is answered with one JSON object, which
says whether it was a success (`Response.Document`).  All objects are records, so that they are read
back from their texts with the fields that they were given (`Response.document_record`).  A failure
is told with its name, its message and its causes (`Json.TellsFailure`), a check lists the channels
(`FilterSet.Listed`), and an evaluation shows the value (`Complex.Shown`). -/

namespace PenFilter

/-! ### Documents -/

/-- The response is one object on lines of its own, which is read back from them, and its member
`success` says whether the exit code is zero. -/
structure Response.Document (r : Response) (doc : Json) : Prop where
  stdout : r.stdout = doc.pretty ++ "\n"
  stderr : r.stderr = ""
  reads : Json.read? doc.pretty = some doc ∧ Json.read? r.stdout = some doc
  object : ∃ members, doc = .object members
  success : doc.fields? ["success"] = some [some (.bool (r.exit == 0))]

theorem Response.document_record {fields : List (String × Option Json)}
    (hkeys : (fields.map Prod.fst).Nodup) (hvalues : ∀ f ∈ fields, ∀ v ∈ f.2, v.Writable)
    {exit : Nat} (hsuccess : ("success", some (.bool (exit == 0))) ∈ fields) :
    Document ⟨exit, (Json.record fields).pretty ++ "\n", ""⟩ (.record fields) := by
  have hwritable := Json.writable_record hvalues
  have hread : ∀ blanks : String, (∀ c ∈ blanks.toList, Json.isSpace c) →
      Json.read? ((Json.record fields).pretty ++ blanks) = some (.record fields) :=
    fun _ => Json.read?_pretty_append hwritable
  refine ⟨rfl, rfl, ⟨?_, hread "\n" (by simp [Json.isSpace])⟩, ⟨_, rfl⟩, ?_⟩
  · have h := hread "" nofun
    rwa [String.append_empty] at h
  · have hpart : [("success", some (Json.bool (exit == 0)))] ⊆ fields :=
      List.cons_subset.mpr ⟨hsuccess, List.nil_subset _⟩
    exact Json.fields?_record_of_subset hkeys hpart

namespace Json

/-! ### Failures -/

/-- The fields of an error. -/
def errorFields (name message : String) (causes : List String) : List (String × Option Json) :=
  [("causes", some (array (causes.map ofString))), ("message", some (ofString message)),
    ("type", some (ofString name))]

/-- The fields of a failure. -/
def failureFields (name message : String) (causes : List String) :
    List (String × Option Json) :=
  [("error", some (record (errorFields name message causes))), ("success", some (bool false))]

/-- A failure is told with its name, its message and its causes. -/
def TellsFailure (doc : Json) (name message : String) (causes : List String) : Prop :=
  ∃ error, doc.fields? ["error", "success"] = some [some error, some (bool false)] ∧
    error.fields? ["causes", "message", "type"] =
      some [some (array (causes.map ofString)), some (ofString message), some (ofString name)]

theorem document_failure (name message : String) (causes : List String) {exit : Nat}
    (hexit : exit ≠ 0) :
    Response.Document ⟨exit, (record (failureFields name message causes)).pretty ++ "\n", ""⟩
        (record (failureFields name message causes)) ∧
      (record (failureFields name message causes)).TellsFailure name message causes := by
  have hsuccess : (exit == 0) = false := by simpa using hexit
  have herror : (record (errorFields name message causes)).Writable :=
    writable_record (by simp [errorFields])
  constructor
  · apply Response.document_record
    · simp [failureFields]
    · simp [failureFields, herror]
    · simp [failureFields, hsuccess]
  · refine ⟨_, fields?_record (failureFields name message causes) ?_,
      fields?_record (errorFields name message causes) ?_⟩
    · simp [failureFields]
    · simp [errorFields]

end Json

/-- The fallbacks of a check are the only failure that is not told apart from what is printed. -/
theorem CommandResult.response_failure {e : CommandError}
    (he : ∀ count, e ≠ .channelsFellBack count) :
    (failure e).response .script = ⟨e.exitCode, e.toJson.pretty ++ "\n", ""⟩ := by
  have hprinted : "" ++ e.toJson.pretty ++ "\n" = e.toJson.pretty ++ "\n" := by
    rw [String.empty_append]
  cases e with
  | channelsFellBack count => exact absurd rfl (he count)
  | _ => exact congrArg (Response.mk _ · _) hprinted

theorem CommandError.exitCode_ne_zero (e : CommandError) : e.exitCode ≠ 0 := by
  cases e <;> exact nofun

namespace CommandError

/-- The object of a failure, as a script reads it. -/
def Told (e : CommandError) (doc : Json) : Prop := doc.TellsFailure e.name e.message e.causes

theorem document_told {e : CommandError} (he : ∀ count, e ≠ .channelsFellBack count) :
    ((CommandResult.failure e).response .script).Document e.toJson ∧ e.Told e.toJson := by
  rw [CommandResult.response_failure he]
  exact Json.document_failure e.name e.message e.causes e.exitCode_ne_zero

end CommandError

/-! ### Checks -/

/-- An entry for a channel: its formula, and why that one was replaced, if it was. -/
def ChannelSnapshot.Listed (c : ChannelSnapshot) (item : Json) : Prop :=
  item.fields? ["channel", "formula", "status", "error"] =
    some [some (.ofString c.channel.name), some (.ofString c.formula),
      some (.ofString (if c.fallback.isSome then "fallback" else "ok")),
      c.fallback.map .ofString]

namespace ChannelFilter

def jsonFields (f : ChannelFilter) : List (String × Option Json) :=
  [("channel", some (.ofString f.channel.name)), ("formula", some (.ofString f.formula)),
    ("status", some (.ofString (if f.rejected.isSome then "fallback" else "ok"))),
    ("error", f.rejected.map fun e => .ofString e.message)]

theorem toJson_eq (f : ChannelFilter) : f.toJson = .record f.jsonFields := by
  unfold toJson jsonFields
  cases f.rejected <;> rfl

theorem writable_toJson (f : ChannelFilter) : f.toJson.Writable := by
  rw [toJson_eq]
  apply Json.writable_record
  simp [jsonFields]

theorem listed_toJson (f : ChannelFilter) : f.snapshot.Listed f.toJson := by
  have hfields := Json.fields?_record f.jsonFields (by simp [jsonFields])
  rw [← toJson_eq] at hfields
  unfold ChannelSnapshot.Listed snapshot
  rw [Option.isSome_map, Option.map_map]
  exact hfields

end ChannelFilter

namespace FilterSet

/-- A check lists the channels of a set in their order, and says whether all formulas are in use. -/
def Listed (filters : FilterSet) (doc : Json) : Prop :=
  ∃ items, doc.fields? ["success", "variant", "settings_hash", "channels"] =
      some [some (.bool filters.rejections.isEmpty), some (.ofString filters.variant.text),
        some (.ofString (fingerprintText filters.fingerprint)), some (.array items)] ∧
    List.Forall₂ ChannelSnapshot.Listed (filters.channels.map ChannelFilter.snapshot) items

def jsonFields (filters : FilterSet) : List (String × Option Json) :=
  [("success", some (.bool filters.rejections.isEmpty)),
    ("variant", some (.ofString filters.variant.text)),
    ("settings_hash", some (.ofString (fingerprintText filters.fingerprint))),
    ("channels", some (.array (filters.channels.map ChannelFilter.toJson)))]

/-- The list is the one document, and nothing follows it when formulas were replaced. -/
theorem document_listed (filters : FilterSet) :
    ((filters.report .script).response .script).Document filters.toJson ∧
      ((filters.report .script).response .script).exit =
        (if filters.rejections = [] then 0 else 4) ∧
      filters.Listed filters.toJson := by
  have hchannels : (Json.array (filters.channels.map ChannelFilter.toJson)).Writable := by
    apply Json.writable_array
    intro v hv
    obtain ⟨f, -, rfl⟩ := List.mem_map.mp hv
    exact f.writable_toJson
  have hitems : List.Forall₂ ChannelSnapshot.Listed
      (filters.channels.map ChannelFilter.snapshot)
      (filters.channels.map ChannelFilter.toJson) := by
    rw [List.forall₂_map_left_iff, List.forall₂_map_right_iff]
    exact List.forall₂_same.mpr fun f _ => f.listed_toJson
  have hresponse : (filters.report .script).response .script =
      ⟨if filters.rejections = [] then 0 else 4, filters.toJson.pretty ++ "\n", ""⟩ := by
    unfold report
    cases filters.rejections <;> rfl
  have hkeys : (filters.jsonFields.map Prod.fst).Nodup := by simp [jsonFields]
  rw [hresponse]
  refine ⟨Response.document_record hkeys ?_ ?_, rfl, _, Json.fields?_record _ hkeys, hitems⟩
  · simp [jsonFields, hchannels]
  · cases hrejections : filters.rejections <;> simp [jsonFields, hrejections]

end FilterSet

/-! ### Evaluations -/

namespace Complex

/-- An evaluation shows the formula and both parts of its value. -/
def Shown (z : Complex) (formula : String) (variant : Variant) (doc : Json) : Prop :=
  doc.fields? ["formula", "imaginary", "result", "success", "variant"] =
    some [some (.ofString formula), some (.ofBinary z.im), some (.ofBinary z.re),
      some (.bool true), some (.ofString variant.text)]

theorem document_shown (z : Complex) (formula : String) (variant : Variant) :
    ((CommandResult.ofJson (z.toJson formula variant)).response .script).Document
        (z.toJson formula variant) ∧
      z.Shown formula variant (z.toJson formula variant) := by
  let fields : List (String × Option Json) :=
    [("formula", some (.ofString formula)), ("imaginary", some (.ofBinary z.im)),
      ("result", some (.ofBinary z.re)), ("success", some (.bool true)),
      ("variant", some (.ofString variant.text))]
  have hkeys : (fields.map Prod.fst).Nodup := by simp [fields]
  refine ⟨Response.document_record hkeys ?_ ?_, Json.fields?_record fields hkeys⟩
  · simp [fields]
  · simp [fields]

end Complex

theorem exitCode_of_readBinding {variant : Variant} {binding : String} {e : CommandError}
    (h : readBinding variant binding = .error e) : e.exitCode = 2 := by
  unfold readBinding at h
  split at h
  · obtain rfl := Except.error.inj h
    rfl
  · split at h
    · obtain rfl := Except.error.inj h
      rfl
    · dsimp only at h
      split at h
      · obtain rfl := Except.error.inj h
        rfl
      · cases h

theorem exitCode_of_bindAll {variant : Variant} {bindings : List String} {values : Array Double}
    {e : CommandError} (h : bindAll variant bindings values = .error e) : e.exitCode = 2 := by
  induction bindings generalizing values with
  | nil => cases h
  | cons binding bindings ih =>
      unfold bindAll at h
      cases hread : readBinding variant binding with
      | ok bound =>
          rw [hread] at h
          exact ih h
      | error cause =>
          rw [hread] at h
          obtain rfl := Except.error.inj h
          exact exitCode_of_readBinding hread

/-- An evaluation fails on a binding or on the formula. -/
theorem exitCode_of_evaluateWith {variant : Variant} {formula : String} {bindings : List String}
    {e : CommandError} (h : evaluateWith variant formula bindings = .error e) : e.exitCode = 2 := by
  unfold evaluateWith at h
  cases hbound : bindValues variant bindings with
  | error cause =>
      rw [hbound] at h
      obtain rfl := Except.error.inj h
      exact exitCode_of_bindAll hbound
  | ok values =>
      rw [hbound] at h
      cases hprogram : Program.ofFormula variant.schema formula with
      | error cause =>
          simp only [bind, Except.bind, hprogram] at h
          obtain rfl := Except.error.inj h
          rfl
      | ok program =>
          simp only [bind, Except.bind, hprogram] at h
          cases h

/-! ### Scripts -/

section

variable [Libraries]

/-- What a check tells a script: why the settings cannot be read or cannot be compiled, or what
becomes of each channel. -/
inductive Response.TellsCheck (r : Response) (doc : Json) (files : Files) (path : String) : Prop
  | unread {error : SettingsError} : Settings.ofFile files path = .error error →
    r.exit = 3 → (CommandError.settings error).Told doc → TellsCheck r doc files path
  | refused {settings : Settings} {error : SettingsError} :
    Settings.ofFile files path = .ok settings → (FilterSet.compile settings).2 = .error error →
    r.exit = 3 → (CommandError.settings error).Told doc → TellsCheck r doc files path
  | listed {settings : Settings} {filters : FilterSet} :
    Settings.ofFile files path = .ok settings → (FilterSet.compile settings).2 = .ok filters →
    r.exit = (if filters.rejections = [] then 0 else 4) → filters.Listed doc →
    TellsCheck r doc files path

theorem exists_document_check (files : Files) (stdin path : String) :
    ∃ doc, (Request.respond ⟨.check path, .script⟩ files stdin).Document doc ∧
      (Request.respond ⟨.check path, .script⟩ files stdin).TellsCheck doc files path := by
  show ∃ doc, ((check files path .script).response .script).Document doc ∧
    ((check files path .script).response .script).TellsCheck doc files path
  unfold check
  cases hread : Settings.ofFile files path with
  | error error =>
      obtain ⟨hdoc, htold⟩ := CommandError.document_told (e := .settings error) nofun
      exact ⟨_, hdoc, .unread hread rfl htold⟩
  | ok settings =>
      dsimp only
      cases hcompile : (FilterSet.compile settings).2 with
      | error error =>
          obtain ⟨hdoc, htold⟩ := CommandError.document_told (e := .settings error) nofun
          exact ⟨_, hdoc, .refused hread hcompile rfl htold⟩
      | ok filters =>
          obtain ⟨hdoc, hexit, hlisted⟩ := filters.document_listed
          exact ⟨_, hdoc, .listed hread hcompile hexit hlisted⟩

/-- What an evaluation tells a script: why the variant is refused, or which binding or formula
cannot be read, or the value. -/
inductive Response.TellsEval (r : Response) (doc : Json) (settings : Settings) (formula : String)
    (bindings : List String) : Prop
  | refused {error : SettingsError} : settings.validate = .error error →
    r.exit = 3 → (CommandError.settings error).Told doc → TellsEval r doc settings formula bindings
  | failed {error : CommandError} : settings.validate = .ok () →
    evaluateWith settings.filterVariant formula bindings = .error error →
    r.exit = 2 → error.Told doc → TellsEval r doc settings formula bindings
  | shown {z : Complex} : settings.validate = .ok () →
    evaluateWith settings.filterVariant formula bindings = .ok z →
    r.exit = 0 → z.Shown formula settings.filterVariant doc →
    TellsEval r doc settings formula bindings

theorem exists_document_eval (files : Files) (stdin formula : String) (kind : VariantKind)
    (samples : UInt64) (bindings : List String) :
    ∃ doc, (Request.respond ⟨.eval formula kind samples bindings, .script⟩ files stdin).Document
        doc ∧
      (Request.respond ⟨.eval formula kind samples bindings, .script⟩ files stdin).TellsEval doc
        { variant := kind, samples } formula bindings := by
  let settings : Settings := { variant := kind, samples }
  show ∃ doc, ((evaluate formula kind samples bindings .script).response .script).Document doc ∧
    ((evaluate formula kind samples bindings .script).response .script).TellsEval doc settings
      formula bindings
  unfold evaluate
  cases hvalid : settings.validate with
  | error error =>
      obtain ⟨hdoc, htold⟩ := CommandError.document_told (e := .settings error) nofun
      dsimp only
      rw [hvalid]
      exact ⟨_, hdoc, .refused hvalid rfl htold⟩
  | ok valid =>
      dsimp only
      rw [hvalid]
      dsimp only
      cases heval : evaluateWith settings.filterVariant formula bindings with
      | error error =>
          have hcode := exitCode_of_evaluateWith heval
          have hkind : ∀ count, error ≠ .channelsFellBack count := by
            rintro count rfl
            cases hcode
          obtain ⟨hdoc, htold⟩ := CommandError.document_told hkind
          refine ⟨_, hdoc, .failed hvalid heval ?_ htold⟩
          rw [CommandResult.response_failure hkind, hcode]
      | ok z =>
          obtain ⟨hdoc, hshown⟩ := z.document_shown formula settings.filterVariant
          exact ⟨_, hdoc, .shown hvalid heval rfl hshown⟩

/-- **A script is answered with one document.**  Whatever file is checked, whatever the libraries
make of its text and say about it, and whatever formula is evaluated with whatever bindings, there
is one JSON object on the standard output and nothing on the standard error.  The object is read
back from its text; it says that it is a success exactly when the exit code is zero, and it has the
texts of the error, of the channels or of the formula as they were given.  A check with rejected
formulas is answered with its list alone. -/
theorem respond_script_document (files : Files) (stdin : String) :
    (∀ path, ∃ doc, (Request.respond ⟨.check path, .script⟩ files stdin).Document doc ∧
      (Request.respond ⟨.check path, .script⟩ files stdin).TellsCheck doc files path) ∧
    (∀ formula kind samples bindings, ∃ doc,
      (Request.respond ⟨.eval formula kind samples bindings, .script⟩ files stdin).Document doc ∧
      (Request.respond ⟨.eval formula kind samples bindings, .script⟩ files stdin).TellsEval doc
        { variant := kind, samples } formula bindings) :=
  ⟨exists_document_check files stdin, exists_document_eval files stdin⟩

end

/-- The theorem at a file with formulas that are rejected, one of them with a quotation mark, at a
formula that breaks off behind a letter outside ASCII, and at a text that a library refuses with two
lines of its own. -/
theorem respond_script_document_rejected :
    let files : Files := fun _ => .ok "\x7b\"x\": \"\\\"\", \"y\": \"(\"\x7d"
    let checked := Request.respond ⟨.check "pen.json", .script⟩ files ""
    let evaluated := Request.respond ⟨.eval "é" .basic 1 [], .script⟩ files ""
    let reason := "x: invalid type\n\tat line 1 column 6"
    let strict : Libraries := { Libraries.builtIn with settingsOfYaml := fun _ => .error reason }
    let refused := @Request.respond strict ⟨.check "pen.yaml", .script⟩ files ""
    (∃ doc, checked.Document doc ∧ checked.TellsCheck doc files "pen.json") ∧ checked.exit = 4 ∧
      (∃ doc, evaluated.Document doc ∧ evaluated.TellsEval doc { samples := 1 } "é" []) ∧
      evaluated.exit = 2 ∧
      ∃ doc, refused.Document doc ∧ refused.exit = 3 ∧
        doc.TellsFailure "Settings" ("Settings error: Invalid YAML settings: " ++ reason)
          ["Invalid YAML settings: " ++ reason, reason] := by
  intro files checked evaluated reason strict refused
  obtain ⟨hcheck, heval⟩ := respond_script_document files ""
  have hread : @Settings.ofFile strict files "pen.yaml" = .error (.notYaml reason) := by
    decide +kernel
  obtain ⟨doc, hdoc, htells⟩ := (@respond_script_document strict files "").1 "pen.yaml"
  refine ⟨hcheck "pen.json", by decide +kernel, heval "é" .basic 1 [], by decide +kernel, doc, hdoc,
    ?_⟩
  cases htells with
  | unread herror hexit htold =>
      obtain rfl := Except.error.inj (hread.symm.trans herror)
      exact ⟨hexit, htold⟩
  | refused hok | listed hok => cases hread.symm.trans hok

end PenFilter
