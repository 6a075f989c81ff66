import HackVm.Code.Stack

/-!
# Functions and their frames

A call leaves a frame of five words on the stack, above the arguments: the address to return to and
the caller's `LCL`, `ARG`, `THIS` and `THAT`.  `ARG` then points at the first argument and `LCL`
above the frame, where the function puts its locals:

    ARG ->  argument 0 … argument n-1
            address to return to
            LCL, ARG, THIS and THAT of the caller
    LCL ->  local 0 … local k-1

`return` puts the result in place of the first argument, gives the caller its registers back and
continues at the saved address.  That address is read before the result is stored: without
arguments, the two share a word.
-/

namespace HackVm

open Instruction

/-- Keeps the address above the frame during a return. -/
def frameRegister : String :=
  "R14"

/-- Keeps the address to return to during a return. -/
def returnRegister : String :=
  "R15"

/-- The registers that a frame saves, in the order in which they are pushed. -/
def savedRegisters : List String :=
  ["LCL", "ARG", "THIS", "THAT"]

/-- The number of words in a frame. -/
def frameSize : Word :=
  5

/-- Begins a function: its label, and a zero pushed for each local. -/
def functionCode (name : String) (locals : Word) : Code :=
  label name :: (List.replicate locals.toNat (pushNumber 0)).flatten

/-- Pushes the word that a register in memory holds. -/
def saveRegister (register : String) : Code :=
  [symbol register, set .D (.val .M)] ++ pushD

/-- Calls a function on the topmost values; `back` names the point to return to. -/
def callCode (name : String) (arguments : Word) (back : String) : Code :=
  [symbol back, set .D (.val .A)] ++ pushD ++
    savedRegisters.flatMap saveRegister ++
    [symbol "SP", set .D (.val .M), number frameSize, set .D (.sub .A), number arguments,
      set .D (.sub .A), symbol "ARG", set .M .d] ++
    [symbol "SP", set .D (.val .M), symbol "LCL", set .M .d] ++
    [symbol name, branch .zero .JMP, label back]

/-- Copies the word at a distance below the top of the frame into a register in memory. -/
def restoreRegister (register : String) (distance : Word) : Code :=
  [symbol frameRegister, set .D (.val .M), number distance, set .A (.sub .A), set .D (.val .M),
    symbol register, set .M .d]

/-- Returns to the caller. -/
def returnCode : Code :=
  [symbol "LCL", set .D (.val .M), symbol frameRegister, set .M .d] ++
    restoreRegister returnRegister frameSize ++
    popD ++ [symbol "ARG", set .A (.val .M), set .M .d] ++
    [symbol "ARG", set .D (.succ .M), symbol "SP", set .M .d] ++
    restoreRegister "THAT" 1 ++ restoreRegister "THIS" 2 ++
    restoreRegister "ARG" 3 ++ restoreRegister "LCL" 4 ++
    [symbol returnRegister, set .A (.val .M), branch .zero .JMP]

end HackVm
