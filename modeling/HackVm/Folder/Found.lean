import HackVm.Folder.Path
import HackVm.Program

/-!
# Source files on a path

A path leads to a source file or to a folder of them (`Found`).  Of a folder, the source files are
the files directly inside it that have the right extension, in the order of their names
(`sourceFiles`); the order in which the folder lists its entries plays no part.
-/

namespace HackVm

/-- Something in a folder. -/
structure Entry where
  name : String
  /-- The bytes of a file, or why they cannot be read; `none` for what is not a file. -/
  contents? : Option (Except FileFault ByteArray)

/-- What a path leads to. -/
inductive Found
  | file (contents : Except FileFault ByteArray)
  /-- A folder, with its entries in any order. -/
  | folder (entries : List Entry)

/-- A file on its path. -/
structure FoundFile where
  path : String
  contents : Except FileFault ByteArray

/-- Whether a file name is the name of a source file. -/
def isSourceName (name : String) : Bool :=
  (splitExtension name).2 == some sourceExtension

/-- The source file that an entry of a folder is, under its name. -/
def Entry.sourceFile? (entry : Entry) : Option (String × Except FileFault ByteArray) :=
  if isSourceName entry.name then entry.contents?.map (entry.name, ·) else none

/-- The source files that a path leads to. -/
def sourceFiles (path : String) : Except FileFault Found → Except Error (List FoundFile)
  | .error fault => .error (.unreadable path fault)
  | .ok (.file contents) =>
    if (pathName? path).any isSourceName then .ok [⟨path, contents⟩] else .error (.notSource path)
  | .ok (.folder entries) =>
    match (entries.filterMap Entry.sourceFile?).mergeSort fun a b => a.1 ≤ b.1 with
    | [] => .error (.noSources path)
    | files => .ok (files.map fun (name, contents) => ⟨pathJoin path name, contents⟩)

/-- The text of a file that holds these bytes. -/
def decodeText (bytes : ByteArray) : Except FileFault String :=
  match String.fromUTF8? bytes with
  | some text => .ok text
  | none => .error .notText

/-- Reads a file as a source file. -/
def FoundFile.source (file : FoundFile) : Except Error Source :=
  match file.contents.bind decodeText with
  | .error fault => .error (.unreadable file.path fault)
  | .ok text =>
    let fileName := (pathName? file.path).getD ""
    .ok ⟨(splitExtension fileName).1, fileName, text⟩

/-- Reads the source files that a path leads to. -/
def loadSources (path : String) (found : Except FileFault Found) : Except Error (List Source) := do
  (← sourceFiles path found).mapM FoundFile.source

/-- Translates the source files that a path leads to. -/
def translateFound (options : Options) (path : String) (found : Except FileFault Found) :
    Except Error Code := do
  translate options (← loadSources path found)

end HackVm
