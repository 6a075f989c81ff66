import HackVm.Machine.Alu
import HackVm.Machine.Loader

/-!
# Running a program

The state of the machine is its two registers, the number of the next instruction and the memory
(`Cpu`).  It is finished when that number is not the number of an instruction; `Cpu.step` leaves a
finished machine as it is.

An instruction that computes a word reads memory where `A` points before it, and stores there before
it changes `A`.  It jumps where `A` pointed before it.
-/

namespace HackVm

/-- The state of the machine. -/
structure Cpu where
  a : Word := 0
  d : Word := 0
  /-- The number of the next instruction. -/
  pc : Nat := 0
  memory : Memory := .zeros
  deriving DecidableEq

namespace Cpu

/-- Stores a word where a destination says. -/
def store (cpu : Cpu) (dest : Dest) (value : Word) : Cpu :=
  { cpu with
    memory := if dest.storesM then cpu.memory.set cpu.a value else cpu.memory
    a := if dest.storesA then value else cpu.a
    d := if dest.storesD then value else cpu.d }

/-- Runs one instruction. -/
def perform (cpu : Cpu) : Op → Cpu
  | .load value => { cpu with a := value, pc := cpu.pc + 1 }
  | .compute dest comp jump =>
    let value := comp.eval cpu.a cpu.d (cpu.memory.get cpu.a)
    let next := if jump.any (·.taken value) then cpu.a.toNat else cpu.pc + 1
    match dest with
    | none => { cpu with pc := next }
    | some dest => { cpu.store dest value with pc := next }

/-- Whether there is no next instruction. -/
def isFinished (rom : Array Op) (cpu : Cpu) : Bool :=
  rom.size ≤ cpu.pc

/-- Runs the next instruction, if there is one. -/
def step (rom : Array Op) (cpu : Cpu) : Cpu :=
  match rom[cpu.pc]? with
  | some op => cpu.perform op
  | none => cpu

theorem step_eq_self {rom : Array Op} {cpu : Cpu} (h : cpu.isFinished rom) :
    cpu.step rom = cpu := by
  simp only [isFinished, decide_eq_true_eq] at h
  simp [step, Array.getElem?_eq_none h]

theorem step_eq_perform {rom : Array Op} {cpu : Cpu} {op : Op} (h : rom[cpu.pc]? = some op) :
    cpu.step rom = cpu.perform op := by
  simp [step, h]

end Cpu

/-- Why a run ended. -/
inductive RunEnd
  /-- There was no next instruction. -/
  | finished
  /-- The number of steps allowed was used up. -/
  | limitReached
  deriving DecidableEq, Repr

namespace Cpu

/-- Takes steps until there is no next instruction, but no more than a number of them. -/
def run (rom : Array Op) : Nat → Cpu → RunEnd × Cpu
  | 0, cpu => (if cpu.isFinished rom then .finished else .limitReached, cpu)
  | limit + 1, cpu =>
    if cpu.isFinished rom then (.finished, cpu) else run rom limit (cpu.step rom)

/-- Takes steps until the next instruction is the one asked for, but no more than a number of them;
whether it was reached. -/
def runTo (rom : Array Op) (target : Nat) : Nat → Cpu → Bool × Cpu
  | 0, cpu => (cpu.pc == target, cpu)
  | limit + 1, cpu =>
    if cpu.pc = target then (true, cpu)
    else if cpu.isFinished rom then (false, cpu)
    else runTo rom target limit (cpu.step rom)

end Cpu

end HackVm
