import HackVm.Command.Reader
import HackVm.Folder.Fault
import HackVm.Statement

/-!
# Errors

What can go wrong on the way from source files to code, each error with its cause.  The texts are
given once, in `Error.message`.
-/

namespace HackVm

/-- Misuse of a memory segment. -/
inductive SegmentFault
  /-- Nothing can be stored in the segment. -/
  | readOnly (segment : Segment)
  /-- The segment has no such place. -/
  | outOfRange (segment : Segment) (index : Word)
  deriving DecidableEq, Repr

namespace SegmentFault

/-- The fault, without where it happened. -/
def message : SegmentFault → String
  | readOnly segment => "cannot write to the read-only " ++ segment.text ++ " segment"
  | outOfRange segment index =>
    "index " ++ Word.decimal index ++ " is out of range for the " ++ segment.text ++ " segment"

end SegmentFault

/-- Why source files could not be turned into code. -/
inductive Error
  /-- A line of source is not a command. -/
  | line (position : Position) (text : String) (fault : LineFault)
  /-- A command misuses a segment. -/
  | access (position : Position) (fault : SegmentFault)
  /-- A command declares a label that is already taken. -/
  | labelTaken (position : Position) (label : String)
  /-- A file or a folder could not be read. -/
  | unreadable (path : String) (fault : FileFault)
  /-- A folder holds no source file. -/
  | noSources (path : String)
  /-- The file to translate is not a source file. -/
  | notSource (path : String)
  deriving DecidableEq, Repr

namespace Error

/-- The error as it is told to the user. -/
def message : Error → String
  | line position text .unrecognized =>
    position.text ++ ": unrecognized command `" ++ text ++ "`"
  | line position text (.malformed keyword) =>
    position.text ++ ": malformed command `" ++ text ++ "`: " ++ keyword.usage
  | access position (.readOnly segment) =>
    position.text ++ ": cannot pop into the read-only " ++ segment.text ++ " segment"
  | access position (.outOfRange segment index) =>
    position.text ++ ": index " ++ Word.decimal index ++ " is out of range for the " ++
      segment.text ++ " segment"
  | labelTaken position label =>
    position.text ++ ": label " ++ label ++ " is declared more than once"
  | unreadable path fault => "failed to read " ++ path ++ ": " ++ fault.message
  | noSources path => "no .vm files found in " ++ path
  | notSource path => path ++ " is not a .vm file"

/-- The text of the cause below the error, where it has one. -/
def cause? : Error → Option String
  | unreadable _ fault => some fault.message
  | _ => none

end Error

end HackVm
