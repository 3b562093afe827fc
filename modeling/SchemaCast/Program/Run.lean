import SchemaCast.Program.Config
import SchemaCast.Program.Response

namespace SchemaCast.Program

/-- What a run is to do, with the path of its configuration file and the name of a schema. -/
inductive Command where
  | cast (config schema : String)
  | test (config schema : String)
  | list (config : String)
  deriving DecidableEq

namespace Command

/-- The path of the configuration file. -/
def config : Command → String
  | cast config _ | test config _ | list config => config

end Command

/-- How a run ends: its exit status and what it has written. The errors are the line that reports
why the run failed; the log of a run goes to the same stream and is not part of them. -/
structure Ending where
  status : Nat
  output : String := ""
  errors : String := ""
  deriving DecidableEq

section

variable (isFilter : String → Bool) (files : Files)

/-- The configuration of a run and the catalog of its schema directory. No types or predicates are
registered. -/
def prepare (path : String) : Except ProgramError (Config × Catalog) :=
  match Config.ofFile isFilter files path with
  | .error defect => .error (.config defect)
  | .ok config =>
    match Catalog.loadAll files { directory := config.schemaDirectory } with
    | (.error m, _) => .error (.schema m)
    | (.ok _, catalog) => .ok (config, catalog)

/-- The response to the value on the input. -/
def answer (config : Config) (catalog : Catalog) (input : ByteArray) (schema : String)
    (testOnly : Bool) : Except ProgramError String :=
  match readValue input with
  | .error defect => .error (.input defect)
  | .ok v => do
    let outcome ← apply catalog schema v testOnly
    return responseText config.pretty outcome.response

namespace Command

/-- What a command writes to its output. -/
def output (input : ByteArray) (command : Command) : Except ProgramError String := do
  let (config, catalog) ← prepare isFilter files command.config
  match command with
  | cast _ schema => answer config catalog input schema false
  | test _ schema => answer config catalog input schema true
  | list _ => return responseText config.pretty (listing catalog.names)

/-- The end of a run. Errors end it with status 1. -/
def ending (input : ByteArray) (command : Command) : Ending :=
  match command.output isFilter files input with
  | .ok output => { status := 0, output }
  | .error e => { status := 1, errors := e.report ++ "\n" }

end Command

end

end SchemaCast.Program
