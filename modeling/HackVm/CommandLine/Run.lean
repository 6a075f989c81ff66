import HackVm.CommandLine.Report
import HackVm.Folder.Tree

/-!
# A run of the program

A run reads its arguments, looks up the path of its job, translates, and writes the code to a file
or to the standard output.  Nothing is written unless all of the code could be made.

A run exits with `0` if it did what it was asked for, with `1` if reading, translating or writing
failed, and with `2` if the arguments are not used as they should be.  `run` is a run as a function
on a tree of folders and files.
-/

namespace HackVm

/-- What a run tells its user. -/
structure Response where
  code : Nat
  /-- What is written to the standard output. -/
  output : String := ""
  /-- What is written to the standard error output. -/
  errors : String := ""
  deriving DecidableEq, Repr

/-- The name and version of the program. -/
def versionText : String :=
  "vmil 0.1.0\n"

/-- How the program is used, line by line. -/
def usageLines : List String :=
  ["Translates VM intermediate code into Hack assembly",
    "",
    "Usage: vmil [OPTIONS] <PATH>",
    "",
    "Arguments:",
    "  <PATH>  Directory of .vm files, or a single .vm file",
    "",
    "Options:",
    "  -o, --output <OUTPUT>  Write assembly here instead of stdout",
    "      --no-bootstrap     Skip the SP initialisation and Sys.init call",
    "      --no-comments      Omit the comment naming each VM command",
    "      --check            Report operand stack problems as warnings",
    "  -v, --verbose          Verbose output",
    "  -h, --help             Print help",
    "  -V, --version          Print version"]

/-- How the program is used. -/
def usageText : String :=
  String.join (usageLines.map (· ++ "\n"))

/-- The response to arguments that are not used as they should be. -/
def usageResponse : Response :=
  { code := 2, errors := usageText }

/-- The response to a request for help. -/
def helpResponse : Response :=
  { code := 0, output := usageText }

/-- The response to a request for the version. -/
def versionResponse : Response :=
  { code := 0, output := versionText }

/-- Why a run failed: the failure and, if it has one, its cause. -/
def failureText (message : String) (cause? : Option String) : String :=
  "Error: " ++ message ++ "\n" ++
    cause?.elim "" fun cause => "\nCaused by:\n    " ++ cause ++ "\n"

/-- What becomes of a request once the path of its job was looked up. -/
inductive Plan
  /-- The run ends with a response. -/
  | respond (response : Response)
  /-- The run writes a file, and responds as the writing goes. -/
  | write (path text : String) (respond : Except FileFault Unit → Response)

namespace Job

/-- The response to a job that writes a file. -/
def writeResponse (threshold : Threshold) (log : List LogRecord) (product : Product)
    (path : String) : Except FileFault Unit → Response
  | .ok () =>
    let record : LogRecord := ⟨.info, "vmil", "wrote " ++ product.instructions.repr ++
      " instructions from " ++ product.files.repr ++ " file(s) to " ++ path⟩
    { code := 0, errors := shownText threshold (log ++ [record]) }
  | .error fault =>
    { code := 1
      errors := shownText threshold log ++
        failureText ("failed to write " ++ path) (some fault.message) }

/-- What becomes of a job, from what its path leads to. -/
def plan (job : Job) (setting? : Option String) (found : Except FileFault Found) : Plan :=
  let threshold := Threshold.ofSetting setting? job.verbose
  let log := job.log threshold found
  match job.result found with
  | .error error =>
    .respond
      { code := 1
        errors := shownText threshold log ++ failureText error.message error.cause? }
  | .ok product =>
    match job.output? with
    | none => .respond { code := 0, output := product.text, errors := shownText threshold log }
    | some path => .write path product.text (writeResponse threshold log product path)

end Job

/-- A run on a tree: the response, and the tree behind the run. -/
def run (tree : Tree) (setting? : Option String) (arguments : List String) : Response × Tree :=
  match Request.ofArguments arguments with
  | none => (usageResponse, tree)
  | some .help => (helpResponse, tree)
  | some .version => (versionResponse, tree)
  | some (.translate job) =>
    match job.plan setting? (tree.find job.path) with
    | .respond response => (response, tree)
    | .write path text respond =>
      match tree.write path text.toUTF8 with
      | .ok written => (respond (.ok ()), written)
      | .error fault => (respond (.error fault), tree)

end HackVm
