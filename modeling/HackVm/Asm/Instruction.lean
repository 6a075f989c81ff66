import HackVm.Word

/-!
# Instructions of the machine

The machine has two registers, `A` and `D`, and a memory of which it sees one word at a time: `M`,
the word that `A` points at.  An instruction either loads a number into `A` or computes a word from
the registers, stores it, and possibly jumps to the instruction that `A` points at.

A computation takes its second operand from `A` or from `M` (`Operand`), and ten computations come
in both kinds; with the eight that need neither there are twenty-eight (`Comp.all`).

A program in assembly also has symbols in place of numbers, labels and comments.  Labels and
comments take no room in the machine's memory (`Instruction.isExecutable`).
-/

namespace HackVm

/-- What an instruction loads into `A`. -/
inductive Address
  /-- The address that a label or a variable stands for. -/
  | symbol (name : String)
  | number (value : Word)
  deriving DecidableEq, Repr

/-- Where a computed word is stored. -/
inductive Dest
  | M
  | D
  | MD
  | A
  | AM
  | AD
  | AMD
  deriving DecidableEq, Repr

namespace Dest

/-- Every destination. -/
def all : List Dest :=
  [M, D, MD, A, AM, AD, AMD]

/-- Whether the register `A` is written. -/
def storesA : Dest → Bool
  | A | AM | AD | AMD => true
  | M | D | MD => false

/-- Whether the register `D` is written. -/
def storesD : Dest → Bool
  | D | MD | AD | AMD => true
  | M | A | AM => false

/-- Whether the word that `A` points at is written. -/
def storesM : Dest → Bool
  | M | MD | AM | AMD => true
  | D | A | AD => false

end Dest

/-- The second operand of a computation: the register `A` or the word it points at. -/
inductive Operand
  | A
  | M
  deriving DecidableEq, Repr

/-- What is computed. -/
inductive Comp
  | zero
  | one
  | minusOne
  | d
  | notD
  | negD
  | succD
  | predD
  | val (x : Operand)
  | not (x : Operand)
  | neg (x : Operand)
  | succ (x : Operand)
  | pred (x : Operand)
  | add (x : Operand)
  /-- `D` minus the operand. -/
  | sub (x : Operand)
  /-- The operand minus `D`. -/
  | rsub (x : Operand)
  | and (x : Operand)
  | or (x : Operand)
  deriving DecidableEq, Repr

/-- Every computation. -/
def Comp.all : List Comp :=
  [.zero, .one, .minusOne, .d, .val .A, .val .M, .notD, .not .A, .not .M, .negD, .neg .A, .neg .M,
    .succD, .succ .A, .succ .M, .predD, .pred .A, .pred .M, .add .A, .add .M, .sub .A, .sub .M,
    .rsub .A, .rsub .M, .and .A, .and .M, .or .A, .or .M]

theorem Comp.mem_all (comp : Comp) : comp ∈ all := by
  cases comp with
  | val x | not x | neg x | succ x | pred x | add x | sub x | rsub x | and x | or x =>
    cases x <;> decide
  | _ => decide

/-- When a jump is taken, by the sign of the computed word. -/
inductive Jump
  | JGT
  | JEQ
  | JGE
  | JLT
  | JNE
  | JLE
  | JMP
  deriving DecidableEq, Repr

/-- Every jump. -/
def Jump.all : List Jump :=
  [.JGT, .JEQ, .JGE, .JLT, .JNE, .JLE, .JMP]

/-- A line of assembly. -/
inductive Instruction
  /-- Load an address into `A`. -/
  | load (address : Address)
  /-- Compute a word, store it, and jump. -/
  | compute (dest : Option Dest) (comp : Comp) (jump : Option Jump)
  /-- Name the instruction that follows. -/
  | label (name : String)
  /-- Text for the reader. -/
  | comment (text : String)
  deriving DecidableEq, Repr

/-- A stretch of assembly. -/
abbrev Code := List Instruction

namespace Instruction

/-- Load the address that a symbol stands for. -/
def symbol (name : String) : Instruction :=
  load (.symbol name)

/-- Load a number. -/
def number (value : Word) : Instruction :=
  load (.number value)

/-- Compute a word and store it. -/
def set (dest : Dest) (comp : Comp) : Instruction :=
  compute (some dest) comp none

/-- Compute a word and jump if the word is as the jump asks. -/
def branch (comp : Comp) (jump : Jump) : Instruction :=
  compute none comp (some jump)

/-- Whether the instruction takes a word of the machine's program memory. -/
def isExecutable : Instruction → Bool
  | load _ | compute .. => true
  | label _ | comment _ => false

/-- The label that a line declares. -/
def declared? : Instruction → Option String
  | label name => some name
  | load _ | compute .. | comment _ => none

end Instruction

/-- The labels that code declares, in order. -/
def Code.labels (code : Code) : List String :=
  code.filterMap Instruction.declared?

theorem Code.labels_append (code rest : Code) :
    Code.labels (code ++ rest) = Code.labels code ++ Code.labels rest := by
  simp [Code.labels]

end HackVm
