import HackVm.Asm.Instruction

/-!
# The arithmetic unit

The value of each computation, and when a jump is taken.  Arithmetic wraps; a jump looks at the sign
of the computed word.
-/

namespace HackVm

/-- The value of the second operand, from the register `A` and the word it points at. -/
def Operand.value (a m : Word) : Operand → Word
  | A => a
  | M => m

/-- The word that a computation gives, from the registers `A` and `D` and the word that `A` points
at. -/
def Comp.eval (a d m : Word) : Comp → Word
  | zero => 0
  | one => 1
  | minusOne => -1
  | .d => d
  | notD => ~~~d
  | negD => -d
  | succD => d + 1
  | predD => d - 1
  | val x => x.value a m
  | not x => ~~~x.value a m
  | neg x => -x.value a m
  | succ x => x.value a m + 1
  | pred x => x.value a m - 1
  | add x => d + x.value a m
  | sub x => d - x.value a m
  | rsub x => x.value a m - d
  | and x => d &&& x.value a m
  | or x => d ||| x.value a m

/-- Whether a jump is taken when this word was computed. -/
def Jump.taken (word : Word) : Jump → Bool
  | JGT => 0 < Word.signed word
  | JEQ => word = 0
  | JGE => 0 ≤ Word.signed word
  | JLT => Word.signed word < 0
  | JNE => word ≠ 0
  | JLE => Word.signed word ≤ 0
  | JMP => true

end HackVm
