import Std.Data.HashMap
import HackVm.Asm.Instruction
import HackVm.Machine.Memory

/-!
# Loading a program

To load a program, its symbols are replaced by addresses.  Some symbols stand for fixed addresses.
A label stands for the number of instructions before it, labels and comments not counted
(`placeLabels`).  Every other symbol is a variable and gets a word of memory of its own, from
`variableBase` on, in the order in which the variables first occur (`resolve`).

Loading fails if a label is declared twice or is one of the fixed symbols, if there are more than
`romSize` instructions, or if there is no memory left for a variable.
-/

namespace HackVm

/-- How many instructions the program memory has room for. -/
def romSize : Nat :=
  32768

/-- The address of the first variable. -/
def variableBase : Nat :=
  16

/-- An instruction as it is loaded, with its symbol replaced. -/
inductive Op
  /-- Load a number into `A`. -/
  | load (value : Word)
  /-- Compute a word, store it, and jump. -/
  | compute (dest : Option Dest) (comp : Comp) (jump : Option Jump)
  deriving DecidableEq, Repr

/-- Addresses of symbols. -/
abbrev SymbolTable := Std.HashMap String Word

/-- A loaded program. -/
structure Image where
  rom : Array Op
  symbols : SymbolTable

/-- The symbols that stand for fixed addresses. -/
def fixedSymbols : List (String × Word) :=
  [("SP", 0), ("LCL", 1), ("ARG", 2), ("THIS", 3), ("THAT", 4), ("SCREEN", 0x4000), ("KBD", 0x6000)]
    ++ (List.range 16).map fun i => ("R" ++ i.repr, UInt16.ofNat i)

/-- Why a program cannot be loaded. -/
inductive LoadFault
  /-- A label is declared twice, or is a fixed symbol. -/
  | labelTaken (label : String)
  /-- There is no memory left for a variable. -/
  | noMemoryFor (symbol : String)
  /-- There are too many instructions. -/
  | romFull
  deriving DecidableEq, Repr

/-- The error as it is told to the user. -/
def LoadFault.message : LoadFault → String
  | labelTaken label => "label " ++ label ++ " is declared more than once"
  | noMemoryFor symbol => "out of variable space at " ++ symbol
  | romFull => "program does not fit in " ++ romSize.repr ++ " words of ROM"

/-- Adds the labels of code to a table; `count` instructions come before the code. -/
def placeLabels (table : SymbolTable) (count : Nat) : Code → Except LoadFault SymbolTable
  | [] => .ok table
  | .label name :: rest =>
    if table.contains name then .error (.labelTaken name)
    else placeLabels (table.insert name (UInt16.ofNat count)) count rest
  | .comment _ :: rest => placeLabels table count rest
  | .load _ :: rest | .compute _ _ _ :: rest =>
    if count < romSize then placeLabels table (count + 1) rest else .error .romFull

/-- Adds code to loaded instructions, and a variable for every symbol that is not in the table; the
next one is at the address `next`. -/
def resolve (table : SymbolTable) (next : Nat) (rom : Array Op) : Code → Except LoadFault Image
  | [] => .ok ⟨rom, table⟩
  | .load (.number value) :: rest => resolve table next (rom.push (.load value)) rest
  | .load (.symbol name) :: rest =>
    match table[name]? with
    | some address => resolve table next (rom.push (.load address)) rest
    | none =>
      if next < ramSize then
        let address := UInt16.ofNat next
        resolve (table.insert name address) (next + 1) (rom.push (.load address)) rest
      else .error (.noMemoryFor name)
  | .compute dest comp jump :: rest => resolve table next (rom.push (.compute dest comp jump)) rest
  | .label _ :: rest | .comment _ :: rest => resolve table next rom rest

/-- Loads a program. -/
def Image.load (program : Code) : Except LoadFault Image := do
  let table ← placeLabels (Std.HashMap.ofList fixedSymbols) 0 program
  resolve table variableBase #[] program

end HackVm
