import HackVm.CommandLine.Run

/-!
# The command line

The program on the files of the machine it runs on.  What it does is `HackVm.Job.plan`; this module
looks up paths, reads and writes files, and prints.
-/

namespace HackVm

/-- Whether an exception has a number; some calls give it with the sign turned over. -/
def hasNumber (code number : UInt32) : Bool :=
  code == number || code + number == 0

/-- The fault that an exception of the file system stands for. -/
def faultOf (exception : IO.Error) : FileFault :=
  match exception with
  | .noFileOrDirectory .. => .notFound
  | .permissionDenied .. => .other "Permission denied (os error 13)"
  | .inappropriateType _ code _ =>
    if hasNumber code 20 then .notFolder
    else if hasNumber code 21 then .isFolder
    else .other (toString exception)
  | _ => .other (toString exception)

/-- Runs an action on files and keeps its fault as a value. -/
def guarded {α : Type} (action : IO α) : IO (Except FileFault α) := do
  try
    return .ok (← action)
  catch exception =>
    return .error (faultOf exception)

/-- What a path leads to.  Of a folder, only source files are read. -/
def lookUp (path : String) : IO (Except FileFault Found) :=
  guarded do
    let place := (← IO.currentDir) / path
    match (← place.metadata).type with
    | .dir =>
      let entries ← (← place.readDir).toList.mapM fun entry => do
        let isFile ← try
            pure ((← entry.path.metadata).type matches .file)
          catch _ => pure false
        let contents? ←
          if isFile ∧ isSourceName entry.fileName then
            some <$> guarded (IO.FS.readBinFile entry.path)
          else pure none
        return (⟨entry.fileName, contents?⟩ : Entry)
      return .folder entries
    | _ => return .file (← guarded (IO.FS.readBinFile place))

/-- Prints a response, and gives its exit code. -/
def Response.print (response : Response) : IO UInt32 := do
  IO.eprint response.errors
  IO.print response.output
  return UInt32.ofNat response.code

/-- Does what a request asks for. -/
def Request.perform : Request → IO UInt32
  | .help => Response.print helpResponse
  | .version => Response.print versionResponse
  | .translate job => do
    let found ← lookUp job.path
    match job.plan (← IO.getEnv "RUST_LOG") found with
    | .respond response => response.print
    | .write path text respond =>
      (respond (← guarded (IO.FS.writeFile path text))).print

end HackVm

/-- The program. -/
def main (arguments : List String) : IO UInt32 :=
  match HackVm.Request.ofArguments arguments with
  | none => HackVm.usageResponse.print
  | some request => request.perform
