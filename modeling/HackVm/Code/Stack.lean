import HackVm.Asm.Instruction

/-!
# Stack access

The stack grows upwards, and the register `SP` in memory holds the address above its top.  Values
pass between the stack and the rest of the machine through `D`.
-/

namespace HackVm

open Instruction

/-- The first word of the stack. -/
def stackBase : Word :=
  256

/-- Pushes `D`.  The address of the new top is computed from the raised `SP`. -/
def pushD : Code :=
  [symbol "SP", set .M (.succ .M), set .A (.pred .M), set .M .d]

/-- Pops into `D`, and leaves `A` at the popped word. -/
def popD : Code :=
  [symbol "SP", set .AM (.pred .M), set .D (.val .M)]

/-- Pushes a number. -/
def pushNumber (value : Word) : Code :=
  [number value, set .D (.val .A)] ++ pushD

end HackVm
