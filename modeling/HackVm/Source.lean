import HackVm.Error
import HackVm.Text.Split

/-!
# Source files

A source file is a text with a name.  Its lines are numbered from one; of each line what stands
before the first `//` counts, without the blanks around it, and a line of which nothing is left is
skipped.  Every other line is a command, and the first that is not one is the error of the file.

`Source.read` reads one file and `readSources` several, each into a `Part`.
-/

namespace HackVm

open Text

/-- The extension of the name of a source file. -/
def sourceExtension : String :=
  "vm"

/-- A source file. -/
structure Source where
  /-- The name under which the file's static variables are kept. -/
  name : String
  /-- The name of the file in positions. -/
  fileName : String
  /-- What the file holds. -/
  text : String
  deriving DecidableEq, Repr

/-- The commands of one file, in order, under the name of its static variables. -/
structure Part where
  name : String
  statements : List Statement
  deriving DecidableEq, Repr

/-- A source file whose file name is the name with the extension of source files. -/
def Source.ofText (name text : String) : Source where
  name := name
  fileName := name ++ "." ++ sourceExtension
  text := text

/-- What stands on a line before its comment. -/
def beforeComment : List Char → List Char
  | [] => []
  | '/' :: '/' :: _ => []
  | c :: rest => c :: beforeComment rest

/-- What a line says, without its comment and the blanks around it. -/
def content (line : List Char) : List Char :=
  trim (beforeComment line)

/-- The lines of a text that say something, each with its number. -/
def contents (text : List Char) : List (List Char × Nat) :=
  ((split '\n' text).zipIdx 1).filterMap fun (line, number) =>
    if content line = [] then none else some (content line, number)

/-- Reads what a line says. -/
def readLine (position : Position) (line : List Char) : Except Error Statement :=
  match Command.read line with
  | .ok command => .ok ⟨position, command⟩
  | .error fault => .error (.line position (String.ofList line) fault)

/-- Reads a text as the commands of a file. -/
def readText (file text : String) : Except Error (List Statement) :=
  (contents text.toList).mapM fun (line, number) => readLine ⟨file, number⟩ line

/-- Reads a source file. -/
def Source.read (source : Source) : Except Error Part := do
  return ⟨source.name, ← readText source.fileName source.text⟩

/-- Reads source files in order, up to the first that has an error. -/
def readSources (sources : List Source) : Except Error (List Part) :=
  sources.mapM Source.read

end HackVm
