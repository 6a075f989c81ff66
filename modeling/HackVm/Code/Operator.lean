import HackVm.Code.Stack
import HackVm.Command

/-!
# Operators and comparisons

An operator works in place on the top of the stack; where it takes two values, the upper one is
popped into `D` and the lower one is replaced.  A comparison subtracts the upper value from the
lower one, which wraps, and branches on the sign of the difference.
-/

namespace HackVm

open Instruction

/-- The computation of an operator on the top value. -/
def UnaryOp.comp : UnaryOp → Comp
  | neg => .neg .M
  | not => .not .M

/-- The computation of an operator on the lower value in `M` and the upper one in `D`. -/
def BinaryOp.comp : BinaryOp → Comp
  | add => .add .M
  | sub => .rsub .M
  | and => .and .M
  | or => .or .M

/-- The jump taken by a difference for which the comparison holds. -/
def Comparison.jump : Comparison → Jump
  | eq => .JEQ
  | gt => .JGT
  | lt => .JLT

/-- Replaces the top value. -/
def UnaryOp.code (op : UnaryOp) : Code :=
  [symbol "SP", set .A (.pred .M), set .M op.comp]

/-- Replaces the two top values. -/
def BinaryOp.code (op : BinaryOp) : Code :=
  popD ++ [set .A (.pred .A), set .M op.comp]

/-- Replaces the two top values by `-1` if the comparison holds and by `0` otherwise.  The two
symbols name the branch for a comparison that holds and the point where the branches meet. -/
def Comparison.code (op : Comparison) (holds meet : String) : Code :=
  popD ++
    [set .A (.pred .A), set .D (.rsub .M), symbol holds, branch .d op.jump,
      set .D .zero, symbol meet, branch .zero .JMP,
      label holds, set .D .minusOne,
      label meet, symbol "SP", set .A (.pred .M), set .M .d]

end HackVm
