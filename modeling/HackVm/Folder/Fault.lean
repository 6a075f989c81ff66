/-!
# File faults

Why a file or a folder cannot be read or written, with the number and the wording that the operating
system gives the fault.
-/

namespace HackVm

/-- A failed access to a file or a folder. -/
inductive FileFault
  /-- Nothing stands at the path. -/
  | notFound
  /-- The path goes through a file as if it were a folder. -/
  | notFolder
  /-- A folder stands where a file is to be written. -/
  | isFolder
  /-- A part of the path is longer than a name can be. -/
  | nameTooLong
  /-- The path holds a NUL character. -/
  | nulInPath
  /-- The bytes of the file are not UTF-8. -/
  | notText
  /-- Any other fault, by its wording. -/
  | other (text : String)
  deriving DecidableEq, Repr

namespace FileFault

/-- The fault in words. -/
def message : FileFault → String
  | notFound => "No such file or directory (os error 2)"
  | notFolder => "Not a directory (os error 20)"
  | isFolder => "Is a directory (os error 21)"
  | nameTooLong => "File name too long (os error 36)"
  | nulInPath => "file name contained an unexpected NUL byte"
  | notText => "stream did not contain valid UTF-8"
  | other text => text

end FileFault

end HackVm
