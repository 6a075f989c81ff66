import Std.Data.HashSet
import HackVm.Asm.Listing
import HackVm.Code.Command
import HackVm.Source

/-!
# Sessions

A session turns statements into code, one after the other.  It keeps the scope, the code so far, and
the labels that the code declares, because a label that is declared twice has no meaning.

A session goes on after an error and keeps the state it has then:

* a statement that misuses a segment leaves its comment in the code and nothing else;
* a statement that declares a label twice leaves its code and its scope.

When a statement has added code, the code is searched for labels (`Session.declareLabels`), from
where the last search ended (`Session.searched`) to its end.  The search stops at the first label
that is taken, and all of the code counts as searched.
-/

namespace HackVm

/-- What a program gets beside the code of its commands. -/
structure Options where
  /-- Whether the program sets up the stack and calls the entry point before anything else. -/
  bootstrap : Bool := true
  /-- Whether each command's code starts with a comment that shows the command. -/
  comments : Bool := true
  deriving DecidableEq, Repr

/-- The state between two statements. -/
structure Session where
  /-- The scope of the next statement. -/
  scope : Scope
  listing : Listing
  /-- The labels that were found in the code. -/
  labels : Std.HashSet String
  /-- How much of the code was searched for labels. -/
  searched : Nat

/-- Sets up the stack. -/
def stackCode : Code :=
  [.number stackBase, .set .D (.val .A), .symbol "SP", .set .M .d]

namespace Session

/-- A session before its first statement. -/
def start (options : Options) : Session :=
  let scope : Scope := {}
  let listing : Listing := { comments := options.comments }
  if options.bootstrap then
    { scope := scope.afterCall
      listing :=
        (((listing.comment "bootstrap").append stackCode).comment
          (Command.call entryPoint 0).text).append (callCode entryPoint 0 scope.returnSymbol)
      labels := ∅
      searched := 0 }
  else
    { scope, listing, labels := ∅, searched := 0 }

/-- Goes on with another file. -/
def inFile (session : Session) (name : String) : Session :=
  { session with scope := session.scope.inFile name }

/-- Adds labels to a set, up to the first that is in it already; that label, if there is one. -/
def declare (labels : Std.HashSet String) : List String → Std.HashSet String × Option String
  | [] => (labels, none)
  | label :: rest =>
    if labels.contains label then (labels, some label) else declare (labels.insert label) rest

/-- Declares the labels of the code that was not searched yet, up to the first that is taken; that
label, if there is one. -/
def declareLabels (session : Session) : Session × Option String :=
  let new := Code.labels (session.listing.drop session.searched)
  let (labels, taken) := declare session.labels new
  ({ session with labels, searched := session.listing.size }, taken)

/-- Translates a statement. -/
def translate (session : Session) (statement : Statement) : Session × Option Error :=
  let session :=
    { session with listing := session.listing.comment statement.command.text }
  match statement.command.code session.scope with
  | .error fault => (session, some (.access statement.position fault))
  | .ok (code, scope) =>
    let (session, taken) :=
      declareLabels { session with scope, listing := session.listing.append code }
    (session, taken.map (.labelTaken statement.position))

/-- Translates statements up to the first that fails. -/
def translateStatements (session : Session) : List Statement → Session × Option Error
  | [] => (session, none)
  | statement :: rest =>
    match session.translate statement with
    | (session, some error) => (session, some error)
    | (session, none) => session.translateStatements rest

/-- Translates the files of a program, up to the first statement that fails. -/
def translateParts (session : Session) : List Part → Session × Option Error
  | [] => (session, none)
  | part :: rest =>
    match (session.inFile part.name).translateStatements part.statements with
    | (session, some error) => (session, some error)
    | (session, none) => session.translateParts rest

end Session

end HackVm
