import SchemaCast.Misuse

namespace SchemaCast.Program

/-- What is wrong with the configuration. -/
inductive ConfigDefect where
  | unreadable
  | invalid
  | emptyDirectory
  | invalidFilter (filter : String)
  deriving DecidableEq

/-- What is wrong with the input. -/
inductive InputDefect where
  | notUtf8
  | empty
  | invalid
  deriving DecidableEq

/-- What ends a run without an answer. To reject a value is an answer. -/
inductive ProgramError where
  | config (defect : ConfigDefect)
  | input (defect : InputDefect)
  | schema (misuse : Misuse)
  deriving DecidableEq

namespace ConfigDefect

def message : ConfigDefect → String
  | unreadable => "Failed to read config"
  | invalid => "Invalid config JSON"
  | emptyDirectory => "schema_dir must not be empty"
  | invalidFilter filter => "Invalid log_filter '" ++ filter ++ "'"

end ConfigDefect

namespace InputDefect

def message : InputDefect → String
  | notUtf8 => "stream did not contain valid UTF-8"
  | empty => "Empty input"
  | invalid => "JSON error"

end InputDefect

namespace ProgramError

def code : ProgramError → String
  | config _ => "SHAPECAST_CLI_CONFIG_ERROR"
  | input _ => "SHAPECAST_CLI_IO_ERROR"
  | schema _ => "SHAPECAST_CLI_SCHEMA_ERROR"

/-- What is said about the error, without the text that the system, the reader of JSON or the
logging adds to it. -/
def message : ProgramError → String
  | config defect => defect.message
  | input defect => defect.message
  | schema misuse => misuse.message

/-- The line that reports an error. -/
def report (e : ProgramError) : String := e.code ++ ": " ++ e.message

end ProgramError

end SchemaCast.Program
