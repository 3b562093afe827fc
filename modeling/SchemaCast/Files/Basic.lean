namespace SchemaCast

/-- The readable files and directories by path. -/
structure Files where
  /-- The content of a file. -/
  read? : String → Option ByteArray
  /-- The names in a directory, in any order. -/
  list? : String → Option (List String)

namespace Files

/-- The content of a file that is UTF-8 text. -/
def text? (files : Files) (path : String) : Option String :=
  (files.read? path).bind String.fromUTF8?

/-- The path of a name in a directory. -/
def join (directory name : String) : String :=
  if directory.isEmpty || directory.endsWith "/" then directory ++ name
  else directory ++ "/" ++ name

/-- A file name has the extension `json` when it ends so after at least one other character. -/
def hasJsonExtension (name : String) : Bool :=
  ".json".toList.isSuffixOf name.toList && 5 < name.length

end Files

end SchemaCast
