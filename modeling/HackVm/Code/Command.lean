import HackVm.Code.Frame
import HackVm.Code.Jump
import HackVm.Code.Operator
import HackVm.Code.Place

/-!
# The code of a command

`Command.code` gives the code of a command in a scope, together with the scope that the next command
stands in.  Only a `push` or a `pop` of a place that is not there can fail.
-/

namespace HackVm

/-- The code of a command, and the scope behind it. -/
def Command.code (scope : Scope) : Command → Except SegmentFault (Code × Scope)
  | push segment index => return (← pushCode scope segment index, scope)
  | pop segment index => return (← popCode scope segment index, scope)
  | unary op => .ok (op.code, scope)
  | binary op => .ok (op.code, scope)
  | compare op => .ok (op.code scope.trueSymbol scope.endSymbol, scope.afterComparison)
  | label name => .ok ([.label (scope.labelSymbol name)], scope)
  | goto name => .ok (gotoCode (scope.labelSymbol name), scope)
  | ifGoto name => .ok (ifGotoCode (scope.labelSymbol name), scope)
  | function name locals => .ok (functionCode name locals, scope.inFunction name)
  | call name arguments =>
    .ok (callCode name arguments scope.returnSymbol, scope.afterCall)
  | ret => .ok (returnCode, scope)

end HackVm
