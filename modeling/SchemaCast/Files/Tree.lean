import SchemaCast.Files.Basic

namespace SchemaCast

inductive FileTree where
  | file (content : ByteArray)
  | directory (children : List (String × FileTree))

namespace FileTree

/-- The parts of a path between its slashes. -/
def parts (path : String) : List String := path.splitOn "/"

/-- The child of a name. -/
def child? (children : List (String × FileTree)) (name : String) : Option FileTree :=
  (children.find? (·.1 == name)).map Prod.snd

/-- The children with the one of the given name replaced, or added at the end. -/
def setChild (name : String) (tree : FileTree) :
    List (String × FileTree) → List (String × FileTree)
  | [] => [(name, tree)]
  | (other, t) :: rest =>
    if other == name then (name, tree) :: rest else (other, t) :: setChild name tree rest

/-- Puts a tree at a place below a directory, which makes the directories on the way to it. A
directory that is there already stays. -/
def put (tree : FileTree) : List String → FileTree → FileTree
  | [], here => match tree, here with
    | directory [], directory children => directory children
    | _, _ => tree
  | _ :: _, file content => file content
  | name :: rest, directory children =>
    let below := (child? children name).getD (directory [])
    directory (setChild name (put tree rest below) children)

/-- Puts a tree at the place where the parts of a path lead from the given place. A step back up
makes the directory that it leaves. -/
def putAlong (tree : FileTree) (place : List String) : List String → FileTree → FileTree
  | [], root => put tree place root
  | part :: rest, root =>
    if part = "" ∨ part = "." then putAlong tree place rest root
    else if part = ".." then putAlong tree place.dropLast rest (put (directory []) place root)
    else putAlong tree (place ++ [part]) rest root

/-- The tree of the given files. A path that ends in a slash is a directory. -/
def ofList (files : List (String × ByteArray)) : FileTree :=
  files.foldl (fun root (path, content) =>
    putAlong (if path.endsWith "/" then directory [] else file content) [] (parts path) root)
    (directory [])

/-- Follows the parts of a path from a directory, whose ancestors are given from the nearest on. -/
def follow (ancestors : List FileTree) : FileTree → List String → Option FileTree
  | here, [] => some here
  | file _, _ :: _ => none
  | directory children, part :: rest =>
    if part = "" ∨ part = "." then follow ancestors (directory children) rest
    else if part = ".." then
      match ancestors with
      | [] => none
      | parent :: ancestors => follow ancestors parent rest
    else
      (child? children part).bind fun child =>
        follow (directory children :: ancestors) child rest

/-- What is at a relative path. -/
def at? (root : FileTree) (path : String) : Option FileTree :=
  if path.isEmpty || path.startsWith "/" then none else follow [] root (parts path)

/-- The files as a program sees them that runs in the root of the tree. -/
def files (root : FileTree) : Files where
  read? path := match root.at? path with
    | some (file content) => some content
    | _ => none
  list? path := match root.at? path with
    | some (directory children) => some (children.map Prod.fst)
    | _ => none

end FileTree

end SchemaCast
