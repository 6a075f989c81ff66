import HackVm.Asm.Printer
import HackVm.CommandLine.Arguments
import HackVm.CommandLine.Log
import HackVm.Folder.Found
import HackVm.StackCheck

/-!
# What a job reports

The log of a job follows it: a record before each file that is read, one behind each file that
turned out to be commands, the problems with the height of the stack, and a record for each file and
each statement that is translated.  It ends where the job fails.

The log is made from the same functions as the result, and beside it: `Job.result` does not know of
the log, or of the check.
-/

namespace HackVm

/-- The elements that are tried one after the other until one fails, that one included. -/
def attempted {α ε β : Type} (f : α → Except ε β) : List α → List α
  | [] => []
  | a :: rest =>
    match f a with
    | .ok _ => a :: attempted f rest
    | .error _ => [a]

/-- The records for the files that are read. -/
def readingLog (files : List FoundFile) : List LogRecord :=
  (attempted FoundFile.source files).map fun file =>
    ⟨.debug, "vmil::driver", "reading " ++ file.path⟩

/-- The records for the files that turned out to be commands. -/
def parsedLog (sources : List Source) : List LogRecord :=
  (attempted Source.read sources).filterMap fun source =>
    match source.read with
    | .ok part =>
      let count := part.statements.length.repr
      some ⟨.debug, "vmil::driver", "parsed " ++ source.fileName ++ " (" ++ count ++ " commands)"⟩
    | .error _ => none

/-- The records for the problems with the height of the stack. -/
def problemLog (parts : List Part) : List LogRecord :=
  (stackProblems (parts.flatMap (·.statements))).map fun problem =>
    ⟨.warn, "vmil", problem.message⟩

/-- The statements that a session takes up, behind those it took up before: all of them up to the
first that fails, that one included. -/
def Session.attempted (session : Session) (before : Array Statement) :
    List Statement → Array Statement
  | [] => before
  | statement :: rest =>
    match session.translate statement with
    | (_, some _) => before.push statement
    | (session, none) => session.attempted (before.push statement) rest

/-- The records for the files that a session translates, and for their statements. -/
def Session.partLog (session : Session) : List Part → List LogRecord
  | [] => []
  | part :: rest =>
    let session := session.inFile part.name
    let record : LogRecord := ⟨.debug, "vmil::driver", "translating " ++ part.name⟩
    let records := (session.attempted #[] part.statements).toList.map fun statement =>
      (⟨.trace, "vmil::translator", statement.text⟩ : LogRecord)
    match session.translateStatements part.statements with
    | (_, some _) => record :: records
    | (session, none) => record :: records ++ session.partLog rest

/-- The records for the code that is made. -/
def codeLog (options : Options) (parts : List Part) : List LogRecord :=
  let bootstrap :=
    "emitting bootstrap: SP = " ++ Word.decimal stackBase ++ ", call " ++ entryPoint
  (if options.bootstrap then [⟨.debug, "vmil::translator", bootstrap⟩] else []) ++
    (Session.start options).partLog parts

/-- What a job makes. -/
structure Product where
  text : String
  /-- How many instructions there are, labels and comments included. -/
  instructions : Nat
  files : Nat
  deriving DecidableEq, Repr

namespace Job

/-- The outcome of a job, from what its path leads to. -/
def result (job : Job) (found : Except FileFault Found) : Except Error Product := do
  let sources ← loadSources job.path found
  let code ← translate job.options sources
  return ⟨render code, code.length, sources.length⟩

/-- The log of a job, from what its path leads to.  What a threshold leaves out is not even
looked for. -/
def log (job : Job) (threshold : Threshold) (found : Except FileFault Found) : List LogRecord :=
  let detailed := threshold.shows .debug
  match sourceFiles job.path found with
  | .error _ => []
  | .ok files =>
    (if detailed then readingLog files else []) ++
      match files.mapM FoundFile.source with
      | .error _ => []
      | .ok sources =>
        (if detailed then parsedLog sources else []) ++
          match readSources sources with
          | .error _ => []
          | .ok parts =>
            (if job.check then problemLog parts else []) ++
              if detailed then codeLog job.options parts else []

end Job

end HackVm
