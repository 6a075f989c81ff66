import HackVm.Code.Stack

/-!
# Jumps

`goto` and `if-goto` jump to the symbol of a label.
-/

namespace HackVm

open Instruction

/-- Continues at a symbol. -/
def gotoCode (target : String) : Code :=
  [symbol target, branch .zero .JMP]

/-- Pops a value and continues at a symbol if the value is not zero. -/
def ifGotoCode (target : String) : Code :=
  popD ++ [symbol target, branch .d .JNE]

end HackVm
