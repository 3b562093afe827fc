import SchemaCast.Program.Run
import SchemaCast.Proofs.Loading

namespace SchemaCast.Program

inductive Stage where
  | config
  | documents
  | input
  | schema
  deriving DecidableEq

namespace Stage

/-- The place of a stage in a run. -/
def place : Stage → Nat
  | config => 0
  | documents => 1
  | input => 2
  | schema => 3

/-- The code of the errors of a stage. -/
def code : Stage → String
  | config => "SHAPECAST_CLI_CONFIG_ERROR"
  | input => "SHAPECAST_CLI_IO_ERROR"
  | documents | schema => "SHAPECAST_CLI_SCHEMA_ERROR"

end Stage

/-- The file writes the configuration. -/
def Config.GivenBy (files : Files) (path : String) (config : Config) : Prop :=
  ∃ text, files.text? path = some text ∧
    (Json.Written.ofText? text).bind Config.ofWritten? = some config

/-- The file writes a configuration with a directory and with a filter that the logging takes. -/
structure Config.UsableBy (isFilter : String → Bool) (files : Files) (path : String)
    (config : Config) : Prop where
  given : config.GivenBy files path
  directory : Text.allBlank config.schemaDirectory = false
  filter : isFilter config.logFilter = true

/-- What loading the schema directory gives; no types or predicates are registered. -/
def loaded (files : Files) (config : Config) : Except Misuse Nat × Catalog :=
  Catalog.loadAll files { directory := config.schemaDirectory }

section

variable (isFilter : String → Bool) (files : Files) (input : ByteArray) (path name : String)

/-- Why a stage fails, whatever becomes of the other stages that it does not build on. -/
inductive Fails : Stage → ProgramError → Prop where
  | unreadableConfig (unreadable : files.text? path = none) : Fails .config (.config .unreadable)
  | invalidConfig {text : String} (readable : files.text? path = some text)
      (invalid : (Json.Written.ofText? text).bind Config.ofWritten? = none) :
    Fails .config (.config .invalid)
  | emptyDirectory {config : Config} (given : config.GivenBy files path)
      (blank : Text.allBlank config.schemaDirectory = true) :
    Fails .config (.config .emptyDirectory)
  | invalidFilter {config : Config} (given : config.GivenBy files path)
      (directory : Text.allBlank config.schemaDirectory = false)
      (malformed : isFilter config.logFilter = false) :
    Fails .config (.config (.invalidFilter config.logFilter))
  | documents {config : Config} {m : Misuse} (usable : config.UsableBy isFilter files path)
      (loading : (loaded files config).1 = .error m) :
    Fails .documents (.schema m)
  | notUtf8 (unreadable : String.fromUTF8? input = none) : Fails .input (.input .notUtf8)
  | emptyInput {text : String} (readable : String.fromUTF8? input = some text)
      (blank : Text.allBlank text = true) :
    Fails .input (.input .empty)
  | invalidInput {text : String} (readable : String.fromUTF8? input = some text)
      (given : Text.allBlank text = false) (invalid : Value.ofJsonText? text = none) :
    Fails .input (.input .invalid)
  | unknownSchema {config : Config} {count : Nat} (usable : config.UsableBy isFilter files path)
      (loading : (loaded files config).1 = .ok count)
      (unknown : name ∉ (loaded files config).2.names) :
    Fails .schema (.schema (.unknownSchema name))

/-- The stage fails, and none before it does. -/
structure FailsFirst (stage : Stage) (e : ProgramError) : Prop where
  fails : Fails isFilter files input path name stage e
  first : ∀ earlier, earlier.place < stage.place →
    ∀ e, ¬Fails isFilter files input path name earlier e

end

variable {isFilter : String → Bool} {files : Files} {input : ByteArray} {path name : String}

namespace Config

variable {config : Config}

theorem GivenBy.ofFile (h : config.GivenBy files path) :
    ofFile isFilter files path = config.check isFilter := by
  obtain ⟨text, hread, hconfig⟩ := h
  simp only [Config.ofFile, hread, ofText, hconfig]

theorem UsableBy.ofFile (h : config.UsableBy isFilter files path) :
    ofFile isFilter files path = .ok config := by
  rw [h.given.ofFile, check, if_neg (by simp [h.directory]), if_pos h.filter]

end Config

theorem ofFile_of_fails {e : ProgramError} (h : Fails isFilter files input path name .config e) :
    ∃ defect, e = .config defect ∧ Config.ofFile isFilter files path = .error defect := by
  cases h with
  | unreadableConfig unreadable => exact ⟨_, rfl, by rw [Config.ofFile, unreadable]⟩
  | invalidConfig readable invalid =>
    exact ⟨_, rfl, by simp only [Config.ofFile, readable, Config.ofText, invalid]⟩
  | emptyDirectory given blank =>
    exact ⟨_, rfl, by rw [given.ofFile, Config.check, if_pos blank]⟩
  | invalidFilter given directory malformed =>
    exact ⟨_, rfl, by rw [given.ofFile, Config.check, if_neg (by simp [directory]),
      if_neg (by simp [malformed])]⟩

theorem usable_of_not_fails (h : ∀ e, ¬Fails isFilter files input path name .config e) :
    ∃ config : Config, config.UsableBy isFilter files path := by
  cases hread : files.text? path with
  | none => exact absurd (.unreadableConfig hread) (h _)
  | some text =>
    cases hwritten : (Json.Written.ofText? text).bind Config.ofWritten? with
    | none => exact absurd (.invalidConfig hread hwritten) (h _)
    | some config =>
      have hgiven : config.GivenBy files path := ⟨text, hread, hwritten⟩
      cases hblank : Text.allBlank config.schemaDirectory with
      | true => exact absurd (.emptyDirectory hgiven hblank) (h _)
      | false =>
        cases hfilter : isFilter config.logFilter with
        | true => exact ⟨config, hgiven, hblank, hfilter⟩
        | false => exact absurd (.invalidFilter hgiven hblank hfilter) (h _)

theorem readValue_of_fails {e : ProgramError} (h : Fails isFilter files input path name .input e) :
    ∃ defect, e = .input defect ∧ readValue input = .error defect := by
  cases h with
  | notUtf8 unreadable => exact ⟨_, rfl, by rw [readValue, unreadable]⟩
  | emptyInput readable blank => exact ⟨_, rfl, by simp [readValue, readable, blank]⟩
  | invalidInput readable given invalid =>
    exact ⟨_, rfl, by simp [readValue, readable, given, invalid]⟩

theorem readValue_of_not_fails (h : ∀ e, ¬Fails isFilter files input path name .input e) :
    ∃ v, readValue input = .ok v := by
  cases hread : String.fromUTF8? input with
  | none => exact absurd (.notUtf8 hread) (h _)
  | some text =>
    cases hblank : Text.allBlank text with
    | true => exact absurd (.emptyInput hread hblank) (h _)
    | false =>
      cases hjson : Value.ofJsonText? text with
      | none => exact absurd (.invalidInput hread hblank hjson) (h _)
      | some v => exact ⟨v, by simp [readValue, hread, hblank, hjson]⟩

theorem exists_failsFirst {stage : Stage} {e : ProgramError}
    (h : Fails isFilter files input path name stage e) :
    ∃ first e, FailsFirst isFilter files input path name first e := by
  induction hplace : stage.place using Nat.strongRecOn generalizing stage e with
  | ind place ih =>
    by_cases hearlier : ∃ earlier e, earlier.place < stage.place ∧
      Fails isFilter files input path name earlier e
    · obtain ⟨earlier, e, hlt, hfails⟩ := hearlier
      exact ih earlier.place (hplace ▸ hlt) hfails rfl
    · exact ⟨stage, e, h, fun earlier hlt e hfails => hearlier ⟨earlier, e, hlt, hfails⟩⟩

/-- The command that casts by the schema of a name, or only tests. -/
def command (path name : String) (testOnly : Bool) : Command :=
  if testOnly then .test path name else .cast path name

theorem output_eq (testOnly : Bool) :
    (command path name testOnly).output isFilter files input =
      (prepare isFilter files path).bind fun prepared =>
        answer prepared.1 prepared.2 input name testOnly := by
  cases testOnly <;> rfl

theorem prepare_eq {config : Config} (usable : config.UsableBy isFilter files path) :
    prepare isFilter files path = match (loaded files config).1 with
      | .error m => .error (.schema m)
      | .ok _ => .ok (config, (loaded files config).2) := by
  rw [prepare, usable.ofFile]
  dsimp only [loaded]
  generalize Catalog.loadAll files { directory := config.schemaDirectory } = outcome
  obtain ⟨_ | _, catalog⟩ := outcome <;> rfl

/-- The first stage that fails gives the error of a run. -/
theorem output_of_failsFirst {stage : Stage} {e : ProgramError}
    (h : FailsFirst isFilter files input path name stage e) (testOnly : Bool) :
    (command path name testOnly).output isFilter files input = .error e := by
  obtain ⟨h, first⟩ := h
  rw [output_eq]
  cases stage with
  | config =>
    obtain ⟨defect, rfl, hfile⟩ := ofFile_of_fails h
    simp only [prepare, hfile, Except.bind]
  | documents =>
    cases h with
    | documents usable loading => simp only [prepare_eq usable, loading, Except.bind]
  | input =>
    -- Nothing before the input fails, so the run gets as far as that.
    obtain ⟨config, usable⟩ := usable_of_not_fails (first .config (by decide))
    cases hloading : (loaded files config).1 with
    | error m => exact absurd (.documents usable hloading) (first .documents (by decide) _)
    | ok count =>
      obtain ⟨defect, rfl, hread⟩ := readValue_of_fails h
      simp only [prepare_eq usable, hloading, Except.bind, answer, hread]
  | schema =>
    -- The name is looked up only once the input has been read.
    obtain ⟨v, hread⟩ := readValue_of_not_fails (first .input (by decide))
    cases h with
    | unknownSchema usable loading unknown =>
      have hschema := Catalog.schema_of_not_mem_names unknown
      simp only [prepare_eq usable, loading, Except.bind, answer, hread, apply, hschema, bind]

/-- The member of a name in an object. -/
def member? (name : String) : Json → Option Json
  | .object members => members.get? name
  | _ => none

/-- A value is cast exactly if the test finds it valid, and rejected exactly if not. -/
structure Agree (cast test : Json) : Prop where
  accepted : member? "status" cast = some (.text "ok") ↔ member? "valid" test = some (.bool true)
  rejected : member? "status" cast = some (.text "error") ↔
    member? "valid" test = some (.bool false)
  decided : ∃ valid, member? "valid" test = some (.bool valid)

@[simp]
theorem status_cast (v : Value) :
    member? "status" (Outcome.cast v).response = some (.text "ok") := rfl

@[simp]
theorem status_ofRejection (r : Rejection) :
    member? "status" (Outcome.ofRejection r).response = some (.text "error") := rfl

@[simp]
theorem valid_valid (b : Bool) :
    member? "valid" (Outcome.valid b).response = some (.bool b) := rfl

theorem responses_agree {catalog : Catalog} (h : catalog.Harmless) (hn : name ∈ catalog.names)
    (v : Value) :
    ∃ cast test, apply catalog name v false = .ok cast ∧ apply catalog name v true = .ok test ∧
      Agree cast.response test.response := by
  obtain ⟨d, hd, hharmless, _⟩ := h.apply_ok hn
  unfold apply
  rw [hd]
  cases hc : d.cast (some v) with
  | ok w =>
    exact ⟨.cast w, .valid true, by simp [hc], by simp [hc], by simp, by simp, true, by simp⟩
  | error e =>
    cases e with
    | rejected r =>
      exact ⟨.ofRejection r, .valid false, by simp [hc], by simp [hc], by simp, by simp, false,
        by simp⟩
    | misused m => exact absurd hc (hharmless _ m)

/-- If no stage fails, both commands answer, and the answers agree. -/
theorem answers_of_not_fails (h : ∀ stage e, ¬Fails isFilter files input path name stage e) :
    ∃ (config : Config) (cast test : Json), config.UsableBy isFilter files path ∧
      (Command.cast path name).output isFilter files input =
        .ok (responseText config.pretty cast) ∧
      (Command.test path name).output isFilter files input =
        .ok (responseText config.pretty test) ∧
      Agree cast test := by
  obtain ⟨config, usable⟩ := usable_of_not_fails (h .config)
  obtain ⟨v, hread⟩ := readValue_of_not_fails (h .input)
  cases hloading : (loaded files config).1 with
  | error m => exact absurd (.documents usable hloading) (h _ _)
  | ok count =>
    by_cases hn : name ∈ (loaded files config).2.names
    · have hharmless : (loaded files config).2.Harmless :=
        (Catalog.harmless_empty config.schemaDirectory).loadAll files
      obtain ⟨cast, test, hcast, htest, hagree⟩ := responses_agree hharmless hn v
      refine ⟨config, cast.response, test.response, usable, ?_, ?_, hagree⟩
      · refine (output_eq false).trans ?_
        simp only [prepare_eq usable, hloading, Except.bind, answer, hread, hcast, bind, pure,
          Except.pure]
      · refine (output_eq true).trans ?_
        simp only [prepare_eq usable, hloading, Except.bind, answer, hread, htest, bind, pure,
          Except.pure]
    · exact absurd (.unknownSchema usable hloading hn) (h _ _)

theorem code_of_fails {stage : Stage} {e : ProgramError}
    (h : Fails isFilter files input path name stage e) : e.code = stage.code := by
  cases h <;> rfl

/-- The earliest stage that fails decides how casting and testing end, with its error and without
any output. If no stage fails, each writes one answer, and the answers agree. -/
theorem earliest_failure_ends_runs (isFilter : String → Bool) (files : Files) (input : ByteArray)
    (path name : String) :
    (∀ stage e, FailsFirst isFilter files input path name stage e →
      e.code = stage.code ∧
        (Command.cast path name).ending isFilter files input =
          { status := 1, output := "", errors := e.report ++ "\n" } ∧
        (Command.test path name).ending isFilter files input =
          { status := 1, output := "", errors := e.report ++ "\n" }) ∧
    ((¬∃ stage e, FailsFirst isFilter files input path name stage e) →
      ∃ (config : Config) (cast test : Json), config.UsableBy isFilter files path ∧
        Agree cast test ∧
        (Command.cast path name).ending isFilter files input =
          { status := 0, output := responseText config.pretty cast, errors := "" } ∧
        (Command.test path name).ending isFilter files input =
          { status := 0, output := responseText config.pretty test, errors := "" }) := by
  constructor
  · intro stage e h
    have hcast : (Command.cast path name).output isFilter files input = .error e :=
      output_of_failsFirst h false
    have htest : (Command.test path name).output isFilter files input = .error e :=
      output_of_failsFirst h true
    refine ⟨code_of_fails h.fails, ?_, ?_⟩
    · simp only [Command.ending, hcast]
    · simp only [Command.ending, htest]
  · intro hnone
    obtain ⟨config, cast, test, usable, hcast, htest, hagree⟩ :=
      answers_of_not_fails fun stage e h => hnone (exists_failsFirst h)
    refine ⟨config, cast, test, usable, hagree, ?_, ?_⟩
    · simp only [Command.ending, hcast]
    · simp only [Command.ending, htest]

/-- A directory with a schema of booleans, and a configuration with a log filter. -/
def flagFiles (logFilter : String) : Files where
  read? path :=
    if path = "config.json" then
      some ("\x7b\"schema_dir\":\"schemas\",\"log_filter\":\"" ++ logFilter ++ "\"\x7d").toUTF8
    else if path = "schemas/flag.json" then
      some "\x7b\"name\":\"flag\",\"schema\":\x7b\"type\":\"boolean\"\x7d\x7d".toUTF8
    else none
  list? path := if path = "schemas" then some ["flag.json"] else none

/-- The runs fail at a filter that is not taken, and get to an answer otherwise. -/
theorem flag_runs :
    FailsFirst (· == "warn") (flagFiles "flag=loud") "[]".toUTF8 "config.json" "flag" .config
      (.config (.invalidFilter "flag=loud")) ∧
    (Command.cast "config.json" "flag").ending (· == "warn") (flagFiles "flag=loud")
      "[]".toUTF8 = { status := 1, output := "", errors :=
        (ProgramError.config (.invalidFilter "flag=loud")).report ++ "\n" } ∧
    (¬∃ stage e, FailsFirst (· == "warn") (flagFiles "warn") "[]".toUTF8 "config.json" "flag"
      stage e) ∧
    ∃ (config : Config) (cast test : Json),
      config.UsableBy (· == "warn") (flagFiles "warn") "config.json" ∧ Agree cast test ∧
      (Command.cast "config.json" "flag").ending (· == "warn") (flagFiles "warn") "[]".toUTF8 =
        { status := 0, output := responseText config.pretty cast, errors := "" } ∧
      (Command.test "config.json" "flag").ending (· == "warn") (flagFiles "warn") "[]".toUTF8 =
        { status := 0, output := responseText config.pretty test, errors := "" } := by
  have hgiven : Config.GivenBy (flagFiles "flag=loud") "config.json"
      ⟨"schemas", "flag=loud", false⟩ :=
    ⟨"\x7b\"schema_dir\":\"schemas\",\"log_filter\":\"flag=loud\"\x7d", by decide +kernel,
      by decide +kernel⟩
  have hfails : FailsFirst (· == "warn") (flagFiles "flag=loud") "[]".toUTF8 "config.json" "flag"
      .config (.config (.invalidFilter "flag=loud")) := by
    refine ⟨.invalidFilter hgiven (by decide +kernel) (by decide +kernel), ?_⟩
    intro earlier hlt
    cases earlier <;> simp [Stage.place] at hlt
  have hanswers : ((Command.cast "config.json" "flag").ending (· == "warn") (flagFiles "warn")
      "[]".toUTF8).status = 0 := by
    decide +kernel
  have hnone : ¬∃ stage e, FailsFirst (· == "warn") (flagFiles "warn") "[]".toUTF8 "config.json"
      "flag" stage e := by
    rintro ⟨stage, e, h⟩
    obtain ⟨_, hcast, _⟩ := (earliest_failure_ends_runs _ _ _ _ _).1 stage e h
    rw [hcast] at hanswers
    cases hanswers
  exact ⟨hfails, ((earliest_failure_ends_runs _ _ _ _ _).1 _ _ hfails).2.1, hnone,
    (earliest_failure_ends_runs _ _ _ _ _).2 hnone⟩

end SchemaCast.Program
