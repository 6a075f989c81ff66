import Std.Data.HashMap
import HackVm.Code.Scope
import HackVm.Statement

/-!
# Checking the height of the stack

The check follows a program once, in the order of its text, and keeps the number of values on the
stack above the locals of the current function.  Each function is checked by itself.

The height is unknown behind a `goto` and a `return`, until a label is reached to which an earlier
jump has brought a height.  Where it is unknown nothing is reported.  Where it is known, three
things are: a command that takes more values than there are, a `return` without a value, and a label
that is reached with two different heights.

Heights are words.  A height that would be larger wraps (`stackProblems`), or, if sums are checked,
ends the check without an answer (`checkedProblems`).
-/

namespace HackVm

/-- A problem with the height of the stack. -/
inductive StackProblem
  /-- A command takes more values than there are. -/
  | underflow (position : Position) (function : String) (command : Command)
      (needed available : Word)
  /-- A function returns without a value. -/
  | missingResult (position : Position) (function : String)
  /-- A label is reached with another height than before. -/
  | unequalHeights (position : Position) (label : String) (expected found : Word)
  deriving DecidableEq, Repr

/-- The problem as it is told to the user. -/
def StackProblem.message : StackProblem → String
  | underflow position function command needed available =>
    position.text ++ ": `" ++ command.text ++ "` needs " ++ Word.decimal needed ++
      " value(s) but " ++ function ++ " has " ++ Word.decimal available
  | missingResult position function =>
    position.text ++ ": " ++ function ++ " returns with nothing on its stack"
  | unequalHeights position label expected found =>
    position.text ++ ": label " ++ label ++ " reached with stack height " ++ Word.decimal found ++
      ", expected " ++ Word.decimal expected

/-- What the check knows at a point of the program. -/
structure StackCheck where
  function : String := entryPoint
  /-- The height of the stack, if it is known. -/
  height : Option Word := some 0
  /-- The heights with which labels of the current function were reached. -/
  reached : Std.HashMap String Word := ∅

namespace StackCheck

/-- Takes values off the stack.  If there are too few, none are left. -/
def take (check : StackCheck) (statement : Statement) (needed : Word) :
    StackCheck × List StackProblem :=
  match check.height with
  | none => (check, [])
  | some available =>
    ({ check with height := some (Word.minus available needed) },
      if available < needed then
        [.underflow statement.position check.function statement.command needed available]
      else [])

/-- Reaches a label with the current height. -/
def reach (check : StackCheck) (position : Position) (label : String) :
    StackCheck × List StackProblem :=
  match check.height with
  | none => (check, [])
  | some found =>
    match check.reached[label]? with
    | none => ({ check with reached := check.reached.insert label found }, [])
    | some expected =>
      (check, if expected = found then [] else [.unequalHeights position label expected found])

/-- Follows a statement. -/
def step (check : StackCheck) (statement : Statement) : StackCheck × List StackProblem :=
  match statement.command with
  | .function name _ => ({ function := name }, [])
  | .label name =>
    match check.height with
    | some _ => check.reach statement.position name
    | none => ({ check with height := check.reached[name]? }, [])
  | .goto name =>
    let (check, problems) := check.reach statement.position name
    ({ check with height := none }, problems)
  | .ifGoto name =>
    let (check, underflow) := check.take statement 1
    let (check, unequal) := check.reach statement.position name
    (check, underflow ++ unequal)
  | .ret =>
    ({ check with height := none },
      if check.height = some 0 then [.missingResult statement.position check.function] else [])
  | command =>
    let (check, problems) := check.take statement (.ofNat command.effect.pops)
    ({ check with height := check.height.map (· + .ofNat command.effect.pushes) }, problems)

/-- Whether the sum that a command takes is a word: what it leaves is added to what is left behind
the values that it takes.  A `function` begins at zero. -/
def sumFits (check : StackCheck) : Command → Bool
  | .function .. => true
  | command =>
    check.height.all fun height =>
      (Word.minus height (.ofNat command.effect.pops)).toNat + command.effect.pushes < 65536

/-- Whether all sums that statements take are words. -/
def sumsFit (check : StackCheck) : List Statement → Bool
  | [] => true
  | statement :: rest => check.sumFits statement.command && (check.step statement).1.sumsFit rest

/-- Follows statements, and adds the problems to those found before. -/
def follow (check : StackCheck) (found : Array StackProblem) :
    List Statement → StackCheck × Array StackProblem
  | [] => (check, found)
  | statement :: rest =>
    let (check, problems) := check.step statement
    check.follow (found ++ problems) rest

end StackCheck

/-- The problems with the height of the stack in a program, in the order of its text. -/
def stackProblems (statements : List Statement) : List StackProblem :=
  (StackCheck.follow {} #[] statements).2.toList

/-- The problems that are found if sums are checked: none at all, not even an empty list, where a
height is too large for a word. -/
def checkedProblems (statements : List Statement) : Option (List StackProblem) :=
  if StackCheck.sumsFit {} statements then some (stackProblems statements) else none

end HackVm
