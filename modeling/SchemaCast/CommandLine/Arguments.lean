import SchemaCast.CommandLine.LogFilter
import SchemaCast.Program.Run

namespace SchemaCast.CommandLine

open Program

/-- What the command line asks for. -/
inductive Invocation where
  | run (command : Command)
  | help
  | version
  | unusable
  deriving DecidableEq

namespace Invocation

/-- What letters behind a single hyphen ask for: nothing, if they only raise the verbosity. -/
def ofLetters? (versioned : Bool) : List Char → Option Invocation
  | [] => none
  | 'v' :: cs => ofLetters? versioned cs
  | 'h' :: _ => some help
  | 'V' :: _ => some (if versioned then version else unusable)
  | _ => some unusable

/-- What an argument asks for that is no option with a value; nothing, if it only raises the
verbosity. -/
def ofFlag? (versioned : Bool) (argument : String) : Option Invocation :=
  if argument = "--verbose" then none
  else if argument = "--help" then some help
  else if argument = "--version" ∧ versioned then some version
  else match argument.toList with
    | '-' :: c :: cs => if c = '-' then some unusable else ofLetters? versioned (c :: cs)
    | _ => some unusable

/-- An argument can be the value of an option unless it looks like an option. -/
def isValue (argument : String) : Bool :=
  match argument.toList with
  | '-' :: _ :: _ => false
  | _ => true

/-- The value that an argument gives to the option of a name behind an equals sign. -/
def attached? (option argument : String) : Option String :=
  let start := option.toList ++ ['=']
  if start.isPrefixOf argument.toList then some (String.ofList (argument.toList.drop start.length))
  else none

/-- The options of a command as far as they have been given. -/
structure Options where
  config? : Option String := none
  schema? : Option String := none

namespace Options

/-- Gives the path of the configuration, which may be given once and is not empty. -/
def setConfig? (options : Options) (value : String) : Option Options :=
  if options.config?.isSome || value.isEmpty then none else some { options with config? := value }

/-- Gives the name of the schema, which may be given once. -/
def setSchema? (options : Options) (value : String) : Option Options :=
  if options.schema?.isSome then none else some { options with schema? := value }

/-- The path of the configuration file. -/
def path (options : Options) : String := options.config?.getD "./shapecast.json"

end Options

/-- An option with a value, and what its value does. -/
abbrev Setter := String × (Options → String → Option Options)

/-- What is known of a command: its options with values, and what it makes of them. -/
structure Form where
  setters : List Setter
  command? : Options → Option Command

namespace Form

/-- A command that applies a schema, whose name it needs. -/
def applying (command : String → String → Command) : Form where
  setters := [("--config", Options.setConfig?), ("--schema", Options.setSchema?)]
  command? options := options.schema?.map (command options.path)

def listing : Form where
  setters := [("--config", Options.setConfig?)]
  command? options := some (.list options.path)

/-- The commands by name. -/
def all : List (String × Form) :=
  [("cast", applying .cast), ("test", applying .test), ("list", listing)]

def ofName? (name : String) : Option Form :=
  (all.find? (·.1 == name)).map Prod.snd

/-- The options after an argument that carries a value itself. -/
def setAttached? (form : Form) (options : Options) (argument : String) :
    Option (Option Options) :=
  form.setters.findSome? fun (option, set) => (attached? option argument).map (set options)

/-- Reads the options of a command. Nothing may follow two hyphens alone. -/
def read (form : Form) (options : Options) : List String → Invocation
  | [] => match form.command? options with
    | some command => run command
    | none => unusable
  | argument :: rest =>
    match form.setters.find? (·.1 == argument) with
    | some (_, set) => match rest with
      | [] => unusable
      | value :: others =>
        match if isValue value then set options value else none with
        | some options => read form options others
        | none => unusable
    | none => match form.setAttached? options argument with
      | some (some options) => read form options rest
      | some none => unusable
      | none =>
        if argument = "--" then (if rest.isEmpty then read form options rest else unusable)
        else (ofFlag? false argument).getD (read form options rest)

end Form

/-- Reads what follows the request for help: the name of a command or of this request at most. -/
def ofTopics : List String → Invocation
  | [] => help
  | [topic] => if topic = "help" ∨ (Form.ofName? topic).isSome then help else unusable
  | _ => unusable

/-- Reads the command line. -/
def ofArguments : List String → Invocation
  | [] => unusable
  | argument :: rest =>
    match Form.ofName? argument with
    | some form => form.read {} rest
    | none =>
      if argument = "help" then ofTopics rest
      else (ofFlag? true argument).getD (ofArguments rest)

/-- The lines that tell how the program is called. -/
def usage : String :=
  "Usage: shapecast [-v]... cast --schema <SCHEMA> [--config <CONFIG>]\n" ++
  "       shapecast [-v]... test --schema <SCHEMA> [--config <CONFIG>]\n" ++
  "       shapecast [-v]... list [--config <CONFIG>]\n"

/-- The end of a run. An unusable command line ends it with status 2. -/
def ending (files : Files) (input : ByteArray) : Invocation → Ending
  | run command => command.ending isLogFilter files input
  | help => { status := 0, output := usage }
  | version => { status := 0, output := "shapecast 0.1.0\n" }
  | unusable => { status := 2, errors := usage }

end Invocation

end SchemaCast.CommandLine
