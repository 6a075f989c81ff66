import HackVm.Asm.Instruction

/-!
# Assembly as text

An instruction is one line, and `render` puts a line feed behind each.  A computation is written as
`dest=comp;jump`, without the destination and its sign or the jump and its mark where there is none.
Code laid end to end is written end to end (`render_append`).
-/

namespace HackVm

/-- An address as it stands behind `@`. -/
def Address.text : Address → String
  | symbol name => name
  | number value => Word.decimal value

/-- The registers that a destination names. -/
def Dest.text : Dest → String
  | M => "M"
  | D => "D"
  | MD => "MD"
  | A => "A"
  | AM => "AM"
  | AD => "AD"
  | AMD => "AMD"

/-- The operand's letter. -/
def Operand.text : Operand → String
  | A => "A"
  | M => "M"

/-- The formula of a computation. -/
def Comp.text : Comp → String
  | zero => "0"
  | one => "1"
  | minusOne => "-1"
  | d => "D"
  | notD => "!D"
  | negD => "-D"
  | succD => "D+1"
  | predD => "D-1"
  | val x => x.text
  | not x => "!" ++ x.text
  | neg x => "-" ++ x.text
  | succ x => x.text ++ "+1"
  | pred x => x.text ++ "-1"
  | add x => "D+" ++ x.text
  | sub x => "D-" ++ x.text
  | rsub x => x.text ++ "-D"
  | and x => "D&" ++ x.text
  | or x => "D|" ++ x.text

/-- The jump's mnemonic. -/
def Jump.text : Jump → String
  | JGT => "JGT"
  | JEQ => "JEQ"
  | JGE => "JGE"
  | JLT => "JLT"
  | JNE => "JNE"
  | JLE => "JLE"
  | JMP => "JMP"

/-- The instruction as a line, without the line feed. -/
def Instruction.text : Instruction → String
  | load address => "@" ++ address.text
  | compute dest comp jump =>
    dest.elim "" (·.text ++ "=") ++ comp.text ++ jump.elim "" (";" ++ ·.text)
  | label name => "(" ++ name ++ ")"
  | comment text => "// " ++ text

/-- The text of a program, a line for each instruction. -/
def render (code : Code) : String :=
  String.join (code.map (·.text ++ "\n"))

theorem toList_render (code : Code) :
    (render code).toList = code.flatMap fun instruction => instruction.text.toList ++ ['\n'] := by
  simp [render, List.flatMap_map]

theorem render_append (code rest : Code) : render (code ++ rest) = render code ++ render rest := by
  apply String.toList_injective
  simp [toList_render]

end HackVm
