import SchemaCast.Document.Resolve
import SchemaCast.Files.Basic
import SchemaCast.Registry

namespace SchemaCast

/-- The schemas that have been loaded, with the registry that their documents refer to. -/
structure Catalog where
  /-- The directory whose documents make up the catalog. -/
  directory : String
  registry : Registry := {}
  schemas : NameTable Descriptor := .empty

namespace Catalog

/-- A name in a document is a builtin type, else a loaded schema, else a registered type. -/
def scope (catalog : Catalog) : Document.Scope where
  type name := match Builtin.ofName? name with
    | some b => .ok (.builtin b)
    | none => match catalog.schemas.find? name with
      | some d => .ok (.custom d)
      | none => return .custom (← catalog.registry.type name)
  validator := catalog.registry.validator

/-- Adds a compiled schema under a name that is not taken. -/
def register (catalog : Catalog) (name : String) (d : Descriptor) :
    Except Misuse Unit × Catalog :=
  match catalog.schemas.bind? name d with
  | some schemas => (.ok (), { catalog with schemas })
  | none => (.error (.duplicateSchema name), catalog)

/-- The descriptor of a document, as its names stand in the catalog. -/
def compile (catalog : Catalog) (source : String) (document : Document) :
    Except Misuse Descriptor := do
  let schema ← document.definition.schema catalog.scope source
  schema.compile

/-- Loads the document that a text writes, and gives its name. -/
def load (catalog : Catalog) (source text : String) : Except Misuse String × Catalog :=
  match Document.ofText? text with
  | none => (.error (.malformed source .invalidDocument), catalog)
  | some document =>
    if document.name.isEmpty then (.error (.malformed source .emptyName), catalog)
    else match catalog.compile source document with
      | .error m => (.error m, catalog)
      | .ok d =>
        let (result, catalog) := catalog.register document.name d
        (result.map fun _ => document.name, catalog)

/-- Loads the document in a file. -/
def loadFile (files : Files) (catalog : Catalog) (path : String) :
    Except Misuse String × Catalog :=
  match files.text? path with
  | none => (.error (.malformed path .unreadableFile), catalog)
  | some text => catalog.load path text

/-- Loads files one after another up to the first that fails; what was loaded before it stays. -/
def loadFiles (files : Files) (catalog : Catalog) : List String → Except Misuse Unit × Catalog
  | [] => (.ok (), catalog)
  | path :: paths => match catalog.loadFile files path with
    | (.ok _, catalog) => loadFiles files catalog paths
    | (.error m, catalog) => (.error m, catalog)

/-- The documents among the names in a directory, in the order of their names. -/
def documentNames (names : List String) : List String :=
  (names.filter Files.hasJsonExtension).mergeSort fun a b => decide (a ≤ b)

/-- Loads all documents of the directory, and gives their number. -/
def loadAll (files : Files) (catalog : Catalog) : Except Misuse Nat × Catalog :=
  match files.list? catalog.directory with
  | none => (.error (.malformed catalog.directory .unreadableDirectory), catalog)
  | some names =>
    let paths := (documentNames names).map (Files.join catalog.directory)
    let (result, catalog) := loadFiles files catalog paths
    (result.map fun _ => paths.length, catalog)

/-- The descriptor of a loaded schema. -/
def schema (catalog : Catalog) (name : String) : Except Misuse Descriptor :=
  match catalog.schemas.find? name with
  | some d => .ok d
  | none => .error (.unknownSchema name)

/-- The names of the loaded schemas in increasing order. -/
def names (catalog : Catalog) : List String := catalog.schemas.names

end Catalog

end SchemaCast
