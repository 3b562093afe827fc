import SchemaCast.CommandLine.Arguments

namespace SchemaCast.CommandLine

open Program

/-- The content of a file that can be read. -/
def readFile? (path : String) : IO (Option ByteArray) := do
  try
    return some (← IO.FS.readBinFile path)
  catch _ =>
    return none

/-- The names in a directory that can be read. -/
def listDirectory? (path : String) : IO (Option (List String)) := do
  try
    let entries ← (IO.FS.DirEntry.mk path "").root.readDir
    return some (entries.toList.map (·.fileName))
  catch _ =>
    return none

/-- The bytes of a stream up to its end, after those already read. -/
partial def readToEnd (stream : IO.FS.Stream) (before : ByteArray) : IO ByteArray := do
  let bytes ← stream.read 65536
  if bytes.isEmpty then return before else readToEnd stream (before ++ bytes)

/-- The files of a run: its configuration, the schema directory and the documents in it. -/
def filesOf (config : String) : IO Files := do
  let content? ← readFile? config
  let configFile : Files := ⟨fun path => if path = config then content? else none, fun _ => none⟩
  match Config.ofFile isLogFilter configFile config with
  | .error _ => return configFile
  | .ok { schemaDirectory, .. } =>
    let names? ← listDirectory? schemaDirectory
    let documents ← (Catalog.documentNames (names?.getD [])).mapM fun name => do
      let path := Files.join schemaDirectory name
      return (path, ← readFile? path)
    return {
      read? := fun path =>
        if path = config then content? else (documents.lookup path).join
      list? := fun path => if path = schemaDirectory then names? else none }

/-- Whether a command reads its input, which it does only after everything before has succeeded. -/
def readsInput (files : Files) : Command → Bool
  | .list _ => false
  | command => (prepare isLogFilter files command.config).isOk

/-- Ends a run on the machine. -/
def finish (ending : Ending) : IO UInt32 := do
  let output ← IO.getStdout
  output.putStr ending.output
  output.flush
  let errors ← IO.getStderr
  errors.putStr ending.errors
  errors.flush
  return UInt32.ofNat ending.status

end SchemaCast.CommandLine

open SchemaCast CommandLine in
def main (arguments : List String) : IO UInt32 := do
  let invocation := Invocation.ofArguments arguments
  match invocation with
  | .run command =>
    let files ← filesOf command.config
    let input ←
      if readsInput files command then readToEnd (← IO.getStdin) .empty else pure .empty
    finish (invocation.ending files input)
  | _ => finish (invocation.ending ⟨fun _ => none, fun _ => none⟩ .empty)
