import HackVm.Text.Split

/-!
# Paths and file names

A path is a text of names with slashes between them.  The extension of a file name is what stands
behind its last dot, unless that dot is also the first character of the name.
-/

namespace HackVm

open Text

/-- The parts of a path between its slashes; empty ones, `.` and `..` are not names. -/
def pathParts (path : String) : List String :=
  (split '/' path.toList).map String.ofList

/-- The name at the end of a path, if the path ends in one. -/
def pathName? (path : String) : Option String :=
  match ((pathParts path).filter fun part => part ≠ "" ∧ part ≠ ".").getLast? with
  | some ".." => none
  | name => name

/-- The path of a name in the folder at a path. -/
def pathJoin (folder name : String) : String :=
  if folder = "" ∨ folder.toList.getLast? = some '/' then folder ++ name
  else folder ++ "/" ++ name

/-- A file name without its extension, and the extension, if it has one. -/
def splitExtension (name : String) : String × Option String :=
  let reversed := name.toList.reverse
  match reversed.dropWhile (· ≠ '.') with
  | [] | [_] => (name, none)
  | _ :: stem =>
    (String.ofList stem.reverse, some (String.ofList (reversed.takeWhile (· ≠ '.')).reverse))

end HackVm
