import HackVm.Word

/-!
# The scope of code

Code is made in a scope: the file and the function it belongs to, and how many comparisons and calls
came before.  The scope gives symbols their names.

* A static variable is `file.index`.
* A label of the source, and every label that code makes for itself, is `function$label`.
* The labels of a comparison and of a call carry the number of the comparison or call, counted over
  the whole program.
-/

namespace HackVm

/-- The function that runs first, which is also the scope of code before any function. -/
def entryPoint : String :=
  "Sys.init"

/-- Where code stands. -/
structure Scope where
  file : String := ""
  function : String := entryPoint
  /-- How many comparisons came before. -/
  comparisons : Nat := 0
  /-- How many calls came before. -/
  calls : Nat := 0
  deriving DecidableEq, Repr

namespace Scope

/-- The scope at the start of a file. -/
def inFile (scope : Scope) (name : String) : Scope :=
  { scope with file := name }

/-- The scope at the start of a function. -/
def inFunction (scope : Scope) (name : String) : Scope :=
  { scope with function := name }

/-- The symbol of a static variable. -/
def variableSymbol (scope : Scope) (index : Word) : String :=
  scope.file ++ "." ++ Word.decimal index

/-- The symbol of a label. -/
def labelSymbol (scope : Scope) (label : String) : String :=
  scope.function ++ "$" ++ label

/-- The symbol of the next comparison's branch for a comparison that holds. -/
def trueSymbol (scope : Scope) : String :=
  scope.labelSymbol ("cmp.true." ++ scope.comparisons.repr)

/-- The symbol of the point where the branches of the next comparison meet. -/
def endSymbol (scope : Scope) : String :=
  scope.labelSymbol ("cmp.end." ++ scope.comparisons.repr)

/-- The symbol of the point that the next call returns to. -/
def returnSymbol (scope : Scope) : String :=
  scope.labelSymbol ("ret." ++ scope.calls.repr)

/-- The scope behind a comparison. -/
def afterComparison (scope : Scope) : Scope :=
  { scope with comparisons := scope.comparisons + 1 }

/-- The scope behind a call. -/
def afterCall (scope : Scope) : Scope :=
  { scope with calls := scope.calls + 1 }

end Scope

end HackVm
