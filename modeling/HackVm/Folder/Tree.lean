import HackVm.Folder.Found

/-!
# Folder trees

A tree of folders and files below a root, as a program finds it that starts in one folder of it.  A
path is followed part by part (`Tree.walk`), from the root if it starts with a slash and from the
home folder otherwise: an empty part and `.` stay in a folder, `..` leaves it unless it is the root,
and a name enters it.  Each part needs a folder to start from, the last one too, so a path with a
slash at its end leads to a folder or to nothing.

`Tree.find` is what a path leads to, and `Tree.write` puts a file there.
-/

namespace HackVm

/-- A place in a tree: the names on the way to it, the last one first. -/
abbrev Location := List String

/-- What stands at a location. -/
inductive Node
  /-- A file, with its bytes or why they cannot be read. -/
  | file (contents : Except FileFault ByteArray)
  | folder

/-- The longest name, in bytes. -/
def maxNameSize : Nat :=
  255

/-- The longest path, in bytes. -/
def maxPathSize : Nat :=
  4095

/-- Folders and files below a root. -/
structure Tree where
  /-- The folder in which a program starts.  It is always there, and so are those on the way to it,
  the root among them. -/
  home : Location := []
  /-- What else there is. -/
  nodes : List (Location × Node) := []

namespace Tree

/-- What stands at a location. -/
def node? (tree : Tree) (location : Location) : Option Node :=
  if location.isSuffixOf tree.home then some .folder else tree.nodes.lookup location

/-- The entries of a folder that a path leads to.  A file whose own path is too long to be followed
does not show itself as a file. -/
def entries (tree : Tree) (path : String) (folder : Location) : List Entry :=
  tree.nodes.filterMap fun (location, node) =>
    match location with
    | [] => none
    | name :: parent =>
      if parent = folder then
        some ⟨name, match node with
          | .file contents =>
            if (pathJoin path name).utf8ByteSize ≤ maxPathSize then some contents else none
          | .folder => none⟩
      else none

/-- Puts something at a location, in place of what stands there. -/
def put (tree : Tree) (location : Location) (node : Node) : Tree where
  home := tree.home
  nodes :=
    if (tree.nodes.lookup location).isSome then
      tree.nodes.map fun (other, old) => (other, if other = location then node else old)
    else tree.nodes ++ [(location, node)]

/-- Checks that a folder stands at a location. -/
def checkFolder (tree : Tree) (location : Location) : Except FileFault Unit :=
  match tree.node? location with
  | some .folder => .ok ()
  | some (.file _) => .error .notFolder
  | none => .error .notFound

/-- One part of a path further. -/
def enter (location : Location) (part : String) : Location :=
  match part with
  | "" | "." => location
  | ".." => location.tail
  | name => name :: location

/-- Where a path starts. -/
def start (tree : Tree) (path : String) : Location :=
  if path.toList.head? = some '/' then [] else tree.home

/-- Follows the parts of a path from a location. -/
def walk (tree : Tree) (location : Location) : List String → Except FileFault Location
  | [] => .ok location
  | part :: rest => do
    tree.checkFolder location
    if part.utf8ByteSize > maxNameSize then throw .nameTooLong
    tree.walk (enter location part) rest

/-- Checks that a path is one that can be followed at all. -/
def checkPath (path : String) : Except FileFault Unit := do
  if path.contains '\x00' then throw .nulInPath
  if path.isEmpty then throw .notFound
  if path.utf8ByteSize > maxPathSize then throw .nameTooLong

/-- What a path leads to. -/
def find (tree : Tree) (path : String) : Except FileFault Found := do
  checkPath path
  let location ← tree.walk (tree.start path) (pathParts path)
  match tree.node? location with
  | none => throw .notFound
  | some (.file contents) => return .file contents
  | some .folder => return .folder (tree.entries path location)

/-- Writes a file, in place of the file that is there, whether that can be read or not. -/
def write (tree : Tree) (path : String) (bytes : ByteArray) : Except FileFault Tree := do
  checkPath path
  match (pathParts path).reverse.dropWhile (· = "") with
  | [] => throw .isFolder
  | name :: before =>
    let folder ← tree.walk (tree.start path) before.reverse
    tree.checkFolder folder
    if path.toList.getLast? = some '/' ∨ name = "." ∨ name = ".." then throw .isFolder
    if name.utf8ByteSize > maxNameSize then throw .nameTooLong
    match tree.node? (name :: folder) with
    | some .folder => throw .isFolder
    | _ => return tree.put (name :: folder) (.file (.ok bytes))

/-- Makes a folder at a location, unless something stands there. -/
def makeFolder (tree : Tree) (location : Location) : Tree :=
  if (tree.node? location).isSome then tree else tree.put location .folder

/-- Follows the parts of a path from a location, and makes the folders that are not there. -/
def makeWay (tree : Tree) (location : Location) : List String → Tree × Location
  | [] => (tree, location)
  | part :: rest =>
    let location := enter location part
    (tree.makeFolder location).makeWay location rest

/-- Makes a folder at a path, and the folders on the way to it. -/
def addFolder (tree : Tree) (path : String) : Tree :=
  (tree.makeWay (tree.start path) (pathParts path)).1

/-- Makes a file at a path, and the folders on the way to it. -/
def addFile (tree : Tree) (path : String) (bytes : ByteArray) : Tree :=
  match (pathParts path).reverse with
  | [] => tree
  | name :: before =>
    let (tree, folder) := tree.makeWay (tree.start path) before.reverse
    tree.put (name :: folder) (.file (.ok bytes))

end Tree

end HackVm
