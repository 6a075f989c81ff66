import HackVm.Session

/-!
# Arguments of the command line

Arguments are read from left to right.  An argument is one of these:

* `--name` or `--name=value`, an option by its name;
* `-abc`, options by their letters; what follows the letter of an option with a value is the value,
  with or without `=` before it;
* `--`, behind which nothing is an option;
* anything else, the path to translate.

Only `--output` has a value.  Where the value is not in the same argument it is the next one, which
must not look like an option.  An option is given at most once and the path exactly once, and
neither a path nor a value is empty.  `--help` and `--version` end the reading where they stand, so
an error before them counts and one behind them does not.
-/

namespace HackVm

/-- Options without a value. -/
inductive Flag
  | noBootstrap
  | noComments
  | check
  | verbose
  deriving DecidableEq, Repr

/-- What the arguments say, as far as they were read. -/
structure Settings where
  path? : Option String := none
  output? : Option String := none
  flags : List Flag := []
  deriving DecidableEq, Repr

/-- A path to translate, and how. -/
structure Job where
  /-- The source file, or the folder of source files. -/
  path : String
  /-- The file to write; the standard output if there is none. -/
  output? : Option String
  options : Options
  check : Bool
  verbose : Bool
  deriving DecidableEq, Repr

/-- What the arguments ask for. -/
inductive Request
  | translate (job : Job)
  | help
  | version
  deriving DecidableEq, Repr

/-- What an argument does. -/
inductive Step
  /-- The reading goes on with these settings. -/
  | next (settings : Settings)
  /-- The next argument is the value of `--output`. -/
  | output (settings : Settings)
  /-- The reading ends. -/
  | stop (request : Request)

namespace Settings

/-- Notes a flag, unless it was noted before. -/
def addFlag (settings : Settings) (flag : Flag) : Option Settings :=
  if flag ∈ settings.flags then none else some { settings with flags := flag :: settings.flags }

/-- Notes the path, unless there is one already. -/
def addPath (settings : Settings) (path : String) : Option Settings :=
  if settings.path?.isSome ∨ path = "" then none else some { settings with path? := some path }

/-- Notes the file to write, unless there is one already. -/
def addOutput (settings : Settings) (output : String) : Option Settings :=
  if settings.output?.isSome ∨ output = "" then none
  else some { settings with output? := some output }

/-- The job that the settings ask for, if they have a path. -/
def job? (settings : Settings) : Option Job :=
  settings.path?.map fun path =>
    { path
      output? := settings.output?
      options :=
        { bootstrap := .noBootstrap ∉ settings.flags, comments := .noComments ∉ settings.flags }
      check := .check ∈ settings.flags
      verbose := .verbose ∈ settings.flags }

/-- Reads an option by its name. -/
def readName (settings : Settings) (name : String) (value? : Option String) : Option Step :=
  match name, value? with
  | "output", none => some (.output settings)
  | "output", some value => (settings.addOutput value).map .next
  | "no-bootstrap", none => (settings.addFlag .noBootstrap).map .next
  | "no-comments", none => (settings.addFlag .noComments).map .next
  | "check", none => (settings.addFlag .check).map .next
  | "verbose", none => (settings.addFlag .verbose).map .next
  | "help", none => some (.stop .help)
  | "version", none => some (.stop .version)
  | _, _ => none

/-- Reads options by their letters. -/
def readLetters (settings : Settings) : List Char → Option Step
  | [] => some (.next settings)
  | 'o' :: [] => some (.output settings)
  | 'o' :: '=' :: value => (settings.addOutput (String.ofList value)).map .next
  | 'o' :: value => (settings.addOutput (String.ofList value)).map .next
  | 'v' :: rest => do (← settings.addFlag .verbose).readLetters rest
  | 'h' :: _ => some (.stop .help)
  | 'V' :: _ => some (.stop .version)
  | _ :: _ => none

/-- Reads an argument. -/
def readArgument (settings : Settings) (argument : String) : Option Step :=
  match argument.toList with
  | '-' :: '-' :: option =>
    let name := String.ofList (option.takeWhile (· ≠ '='))
    match option.dropWhile (· ≠ '=') with
    | [] => settings.readName name none
    | _ :: value => settings.readName name (some (String.ofList value))
  | '-' :: c :: letters => settings.readLetters (c :: letters)
  | _ => (settings.addPath argument).map .next

/-- Whether an argument cannot be the value of an option. -/
def looksLikeOption (argument : String) : Bool :=
  match argument.toList with
  | '-' :: _ :: _ => true
  | _ => false

/-- Reads the arguments that are left. -/
def readArguments (settings : Settings) : List String → Option Request
  | [] => settings.job?.map .translate
  | "--" :: rest => do
    (← rest.foldlM addPath settings).job?.map .translate
  | argument :: rest => do
    match ← settings.readArgument argument with
    | .stop request => return request
    | .next settings => settings.readArguments rest
    | .output settings =>
      match rest with
      | [] => none
      | value :: rest =>
        if looksLikeOption value then none else (← settings.addOutput value).readArguments rest

end Settings

/-- What the arguments of the command line ask for; `none` if they are not used as they should
be. -/
def Request.ofArguments (arguments : List String) : Option Request :=
  Settings.readArguments {} arguments

end HackVm
