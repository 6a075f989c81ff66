import HackVm.Machine.Cpu

/-!
# The machine

A machine is a loaded program and a state.
-/

namespace HackVm

/-- A loaded program and the state of its run. -/
structure Machine where
  image : Image
  cpu : Cpu

namespace Machine

/-- A machine with a program, before its first step: registers and memory are zero. -/
def load (program : Code) : Except LoadFault Machine := do
  return ⟨← Image.load program, {}⟩

/-- The address of a label or a variable. -/
def symbol? (machine : Machine) (name : String) : Option Word :=
  machine.image.symbols[name]?

/-- Whether there is no next instruction. -/
def isFinished (machine : Machine) : Bool :=
  machine.cpu.isFinished machine.image.rom

/-- Changes a word of memory. -/
def poke (machine : Machine) (address value : Word) : Machine :=
  { machine with cpu.memory := machine.cpu.memory.set address value }

/-- Runs the next instruction, if there is one. -/
def step (machine : Machine) : Machine :=
  { machine with cpu := machine.cpu.step machine.image.rom }

/-- Takes at most a number of steps. -/
def run (machine : Machine) (limit : Nat) : RunEnd × Machine :=
  let (halt, cpu) := machine.cpu.run machine.image.rom limit
  (halt, { machine with cpu })

/-- Takes steps until the next instruction is at a symbol's address; whether it was reached.  With a
symbol that has no address, none are taken. -/
def runTo (machine : Machine) (name : String) (limit : Nat) : Bool × Machine :=
  match machine.symbol? name with
  | none => (false, machine)
  | some target =>
    let (reached, cpu) := machine.cpu.runTo machine.image.rom target.toNat limit
    (reached, { machine with cpu })

end Machine

end HackVm
