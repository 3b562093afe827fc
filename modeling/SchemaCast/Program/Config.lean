import SchemaCast.Document.Fields
import SchemaCast.Files.Basic
import SchemaCast.Program.Error
import SchemaCast.Text.Blank

namespace SchemaCast.Program

structure Config where
  /-- The directory that holds the schema documents. -/
  schemaDirectory : String
  logFilter : String
  /-- Responses are indented. -/
  pretty : Bool
  deriving DecidableEq

namespace Config

open Document

/-- Reads the fields of a configuration. -/
def ofWritten? (w : Json.Written) : Option Config := do
  let fields ← fields? ["schema_dir", "log_filter", "pretty"] w
  return {
    schemaDirectory := ← fields.required? "schema_dir" text?
    logFilter := ← fields.withDefault? "log_filter" "warn" text?
    pretty := ← fields.withDefault? "pretty" false bool? }

/-- A configuration needs a directory and a log filter. What a log filter is depends on the logging
of the host, so it is a parameter here and wherever a configuration is read. -/
def check (isFilter : String → Bool) (config : Config) : Except ConfigDefect Config :=
  if Text.allBlank config.schemaDirectory then .error .emptyDirectory
  else if isFilter config.logFilter then .ok config
  else .error (.invalidFilter config.logFilter)

/-- The configuration that a text writes. -/
def ofText (isFilter : String → Bool) (text : String) : Except ConfigDefect Config :=
  match (Json.Written.ofText? text).bind ofWritten? with
  | none => .error .invalid
  | some config => config.check isFilter

/-- The configuration in a file. -/
def ofFile (isFilter : String → Bool) (files : Files) (path : String) :
    Except ConfigDefect Config :=
  match files.text? path with
  | none => .error .unreadable
  | some text => ofText isFilter text

end Config

end SchemaCast.Program
