import Mathlib.Logic.Function.Iterate
import HackVm.Machine
import HackVm.Proofs.Loading

/-!
# Running code

What a stretch of code does when the machine runs through it.  `Code.run` performs the instructions
of the code one after the other, and `Cpu.steps_run` says that the machine does just that, from the
address at which the code stands, as long as no instruction of it can jump.  A jump at the end is
one more step (`Cpu.steps_branch`).

`Cpu.Steps rom n cpu last` counts the steps of a state, which are those of the machine
(`Machine.iterate_step`).
-/

namespace HackVm

/-! ### Counting steps -/

/-- After `n` steps the machine is in the state `last`. -/
def Cpu.Steps (rom : Array Op) (n : Nat) (cpu last : Cpu) : Prop :=
  (Cpu.step rom)^[n] cpu = last

theorem Cpu.Steps.trans {rom : Array Op} {m n : Nat} {cpu middle last : Cpu}
    (h : Cpu.Steps rom m cpu middle) (g : Cpu.Steps rom n middle last) :
    Cpu.Steps rom (m + n) cpu last := by
  rw [Cpu.Steps, Nat.add_comm, Function.iterate_add_apply, h, g]

/-- A loaded machine has the program's image, and its registers and memory are zero. -/
theorem Machine.load_eq_ok {program : Code} {machine : Machine}
    (h : Machine.load program = .ok machine) :
    Image.load program = .ok machine.image ∧ machine.cpu = {} := by
  rw [Machine.load] at h
  cases hImage : Image.load program with
  | error fault =>
    rw [hImage] at h
    cases h
  | ok image =>
    rw [hImage] at h
    cases h
    exact ⟨rfl, rfl⟩

theorem Machine.load_of_image {program : Code} {image : Image}
    (h : Image.load program = .ok image) : Machine.load program = .ok ⟨image, {}⟩ := by
  rw [Machine.load, h]
  rfl

/-- Steps of a machine are steps of its state. -/
theorem Machine.iterate_step (machine : Machine) (n : Nat) :
    Machine.step^[n] machine =
      { machine with cpu := (Cpu.step machine.image.rom)^[n] machine.cpu } := by
  induction n generalizing machine with
  | zero => rfl
  | succ n ih =>
    rw [Function.iterate_succ_apply, Function.iterate_succ_apply, ih]
    rfl

theorem Machine.image_iterate_step (machine : Machine) (n : Nat) :
    (Machine.step^[n] machine).image = machine.image := by
  rw [Machine.iterate_step]

/-! ### Performing code -/

/-- The state after all instructions of code were performed, one after the other. -/
def Code.run (address : String → Word) (code : Code) (cpu : Cpu) : Cpu :=
  (Code.ops address code).foldl Cpu.perform cpu

theorem Code.run_append (address : String → Word) (code rest : Code) (cpu : Cpu) :
    Code.run address (code ++ rest) cpu = Code.run address rest (Code.run address code cpu) := by
  rw [Code.run, Code.ops_append, List.foldl_append]
  rfl

/-- Whether the instruction cannot jump. -/
def Instruction.isStraight : Instruction → Bool
  | compute _ _ jump => jump.isNone
  | load _ | label _ | comment _ => true

/-- Whether no instruction of the code can jump. -/
def Code.isStraight (code : Code) : Bool :=
  code.all Instruction.isStraight

theorem Code.isStraight_append (code rest : Code) :
    Code.isStraight (code ++ rest) = (Code.isStraight code && Code.isStraight rest) :=
  List.all_append

theorem Cpu.pc_perform_of_isStraight {i : Instruction} {op : Op} {address : String → Word}
    (hStraight : i.isStraight = true) (hOp : i.op? address = some op) (cpu : Cpu) :
    (cpu.perform op).pc = cpu.pc + 1 := by
  rcases i with (_ | _) | ⟨dest, comp, jump⟩ | _ | _
  · cases hOp; rfl
  · cases hOp; rfl
  · cases hOp
    cases Option.isNone_iff_eq_none.mp hStraight
    cases dest <;> rfl
  · cases hOp
  · cases hOp

/-! ### The machine runs through code -/

section Loaded

variable {program code : Code} {image : Image} {cpu : Cpu}

/-- The instruction at the address where code begins. -/
theorem Image.getElem?_rom (h : Image.load program = .ok image) {pc : Nat} {i : Instruction}
    {op : Op} (hAt : Code.At program pc (i :: code)) (hOp : i.op? image.address = some op) :
    image.rom[pc]? = some op := by
  rw [← Array.getElem?_toList, Image.rom_of_load h]
  exact hAt.getElem?_ops hOp

theorem Cpu.steps_one (h : Image.load program = .ok image) {i : Instruction} {op : Op}
    (hAt : Code.At program cpu.pc (i :: code)) (hOp : i.op? image.address = some op) :
    Cpu.Steps image.rom 1 cpu (cpu.perform op) :=
  Cpu.step_eq_perform (Image.getElem?_rom h hAt hOp)

/-- Straight code is run through by all that steps as the machine does, with `cpu` the state of the
machine in it. -/
theorem Code.iterate_straight {State : Type} {cpu : State → Cpu} {step : State → State}
    {perform : State → Op → State} (h : Image.load program = .ok image)
    (hStep : ∀ state op, image.rom[(cpu state).pc]? = some op → step state = perform state op)
    (hCpu : ∀ state op, cpu (perform state op) = (cpu state).perform op) :
    ∀ {code : Code} {state : State},
      Code.At program (cpu state).pc code → Code.isStraight code = true →
        step^[Code.size code] state = (Code.ops image.address code).foldl perform state ∧
          (cpu ((Code.ops image.address code).foldl perform state)).pc =
            (cpu state).pc + Code.size code := by
  intro code
  induction code with
  | nil => intro state _ _; exact ⟨rfl, rfl⟩
  | cons i code ih =>
    intro state hAt hStraight
    rw [Code.isStraight, List.all_cons, Bool.and_eq_true] at hStraight
    have hBehind : Code.At program ((cpu state).pc + Code.size [i]) code :=
      Code.At.right (show Code.At program (cpu state).pc ([i] ++ code) from hAt)
    cases hOp : i.op? image.address with
    | none =>
      have hSkip : i.isExecutable = false := by
        rw [← Instruction.isSome_op? image.address, hOp]
        rfl
      rw [Code.size_cons_of_not hSkip] at hBehind ⊢
      rw [Code.ops, List.filterMap_cons_none hOp]
      exact ih hBehind hStraight.2
    | some op =>
      have hTake : i.isExecutable = true := by
        rw [← Instruction.isSome_op? image.address, hOp]
        rfl
      have hPc : (cpu (perform state op)).pc = (cpu state).pc + 1 := by
        rw [hCpu]
        exact Cpu.pc_perform_of_isStraight hStraight.1 hOp _
      rw [Code.size_cons_of_executable hTake] at hBehind ⊢
      have hNextAt : Code.At program (cpu (perform state op)).pc code := by
        rw [hPc]
        exact hBehind
      obtain ⟨hSteps, hNext⟩ := ih hNextAt hStraight.2
      rw [Code.ops, List.filterMap_cons_some hOp, List.foldl_cons, Function.iterate_succ_apply,
        hStep state op (Image.getElem?_rom h hAt hOp)]
      exact ⟨hSteps, hNext.trans (by omega)⟩

/-- **The machine runs through straight code.** -/
theorem Cpu.steps_run (h : Image.load program = .ok image) {code : Code} {cpu : Cpu}
    (hAt : Code.At program cpu.pc code) (hStraight : Code.isStraight code = true) :
    Cpu.Steps image.rom (Code.size code) cpu (Code.run image.address code cpu) ∧
      (Code.run image.address code cpu).pc = cpu.pc + Code.size code := by
  have hStep : ∀ (cpu : Cpu) (op : Op), image.rom[(id cpu).pc]? = some op →
      cpu.step image.rom = cpu.perform op := fun _ _ => Cpu.step_eq_perform
  exact Code.iterate_straight h hStep (fun _ _ => rfl) hAt hStraight

/-- Straight code and a branch behind it. -/
theorem Cpu.steps_branch (h : Image.load program = .ok image) {comp : Comp} {jump : Jump}
    {rest : Code} (hAt : Code.At program cpu.pc (code ++ Instruction.branch comp jump :: rest))
    (hStraight : Code.isStraight code = true) :
    Cpu.Steps image.rom (Code.size code + 1) cpu
      ((Code.run image.address code cpu).perform (.compute none comp (some jump))) := by
  obtain ⟨hSteps, hPc⟩ := Cpu.steps_run h hAt.left hStraight
  have hBranch := hAt.right
  rw [← hPc] at hBranch
  exact hSteps.trans (Cpu.steps_one h hBranch rfl)

end Loaded

end HackVm
