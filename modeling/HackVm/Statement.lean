import HackVm.Command

/-!
# Statements

A statement is a command together with the place in the source that it was read from.
-/

namespace HackVm

/-- A line of a source file.  Lines count from one. -/
structure Position where
  file : String
  line : Nat
  deriving DecidableEq, Repr

/-- The file's name and the number of the line, with a colon between them. -/
def Position.text (position : Position) : String :=
  position.file ++ ":" ++ position.line.repr

/-- A command and where it stands. -/
structure Statement where
  position : Position
  command : Command
  deriving DecidableEq, Repr

/-- The position and the command on one line. -/
def Statement.text (statement : Statement) : String :=
  statement.position.text ++ ": " ++ statement.command.text

end HackVm
