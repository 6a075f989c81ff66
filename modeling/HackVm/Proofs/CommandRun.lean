import HackVm.Proofs.CommandCode

/-!
# The machine runs a command

Where the code of a command stands in a loaded program, the machine that comes to its first
instruction goes on to the instruction behind it, or to the address that the command jumps to, and
the memory is then what the command makes of it (`Cpu.ArrivesAt`).

There is one statement for each way in which a command goes on: straight on (`arrivesAt_straight`),
over the two branches of a comparison (`arrivesAt_compare`), to a symbol (`arrivesAt_goto`,
`arrivesAt_ifGoto`, `arrivesAt_call`) and to a saved address (`arrivesAt_ret`).
-/

namespace HackVm

open Instruction Register

/-- After `n` steps the machine is at the address `pc` and has this memory. -/
structure Cpu.ArrivesAt (rom : Array Op) (n : Nat) (cpu : Cpu) (pc : Nat) (memory : Memory) :
    Prop where
  pc_eq : ((Cpu.step rom)^[n] cpu).pc = pc
  memory_eq : ((Cpu.step rom)^[n] cpu).memory = memory

theorem Machine.arrives {machine : Machine} {n pc : Nat} {memory : Memory}
    (h : Cpu.ArrivesAt machine.image.rom n machine.cpu pc memory) :
    (Machine.step^[n] machine).cpu.pc = pc ∧ (Machine.step^[n] machine).cpu.memory = memory := by
  rw [Machine.iterate_step]
  exact ⟨h.pc_eq, h.memory_eq⟩

namespace Cpu

theorem arrivesAt_of_steps {rom : Array Op} {n : Nat} {cpu last : Cpu}
    (h : Steps rom n cpu last) : ArrivesAt rom n cpu last.pc last.memory :=
  ⟨congrArg Cpu.pc h, congrArg Cpu.memory h⟩

theorem ArrivesAt.trans {rom : Array Op} {m n : Nat} {cpu : Cpu} {pc pc' : Nat}
    {memory memory' : Memory} (h : ArrivesAt rom m cpu pc memory)
    (g : ∀ middle : Cpu, middle.pc = pc → middle.memory = memory →
      ArrivesAt rom n middle pc' memory') : ArrivesAt rom (m + n) cpu pc' memory' := by
  obtain ⟨hPc, hMemory⟩ := g _ h.pc_eq h.memory_eq
  constructor
  · rw [Nat.add_comm, Function.iterate_add_apply, hPc]
  · rw [Nat.add_comm, Function.iterate_add_apply, hMemory]

/-- A branch goes to the address in `A` if its jump is taken. -/
theorem perform_branch (cpu : Cpu) (comp : Comp) (jump : Jump) :
    cpu.perform (.compute none comp (some jump)) =
      { cpu with pc := if jump.taken (comp.eval cpu.a cpu.d (cpu.memory.get cpu.a)) then cpu.a.toNat
                       else cpu.pc + 1 } := rfl

/-- Code that ends with a jump to a symbol. -/
theorem perform_jump (address : String → Word) (name : String) (cpu : Cpu) :
    (Code.run address [symbol name] cpu).perform (.compute none .zero (some .JMP)) =
      { cpu with a := address name, pc := (address name).toNat } := rfl

/-- Code that ends with a jump to a saved address. -/
theorem perform_returnJump {address : String → Word} (hBack : address returnRegister = back)
    (cpu : Cpu) :
    (Code.run address [symbol returnRegister, set .A (.val .M)] cpu).perform
        (.compute none .zero (some .JMP)) =
      { cpu with a := cpu.memory.get back, pc := (cpu.memory.get back).toNat } := by
  simp only [perform_branch, Code.run_symbol, Code.run_set, Code.run_nil, hBack, store_A,
    Comp.eval, Operand.value, Jump.taken, if_true]

theorem taken_jump (op : Comparison) (difference : Word) :
    op.jump.taken difference = op.holds difference := by
  cases op <;> rfl

/-- The code of a comparison behind its branches. -/
def compareTail (meet : String) : Code :=
  [label meet, symbol "SP", set .A (.pred .M), set .M .d]

/-- The code of a comparison, cut where its jumps go. -/
theorem compareCode_eq (op : Comparison) (holds meet : String) :
    op.code holds meet =
      (popD ++ [set .A (.pred .A), set .D (.rsub .M), symbol holds]) ++ branch .d op.jump ::
        ([set .D .zero, symbol meet] ++ branch .zero .JMP ::
          ([label holds, set .D .minusOne] ++ compareTail meet)) := rfl

/-- The pieces of a comparison: the branch for one that does not hold, the branch for one that does,
and the point where they meet. -/
theorem compare_at {program : Code} {pc : Nat} {op : Comparison} {holds meet : String}
    (hAt : Code.At program pc (op.code holds meet)) :
    Code.At program (pc + 7) ([set .D .zero, symbol meet] ++ branch .zero .JMP ::
        ([label holds, set .D .minusOne] ++ compareTail meet)) ∧
      Code.At program (pc + 10) ([label holds, set .D .minusOne] ++ compareTail meet) ∧
      Code.At program (pc + 11) (compareTail meet) := by
  rw [compareCode_eq] at hAt
  exact ⟨hAt.behind, hAt.behind.behind, hAt.behind.behind.right⟩

section Loaded

variable {program : Code} {image : Image} {cpu : Cpu} (h : Image.load program = .ok image)

include h

theorem arrivesAt_straight {code : Code} {memory : Memory} (hAt : Code.At program cpu.pc code)
    (hStraight : Code.isStraight code = true)
    (hMemory : (Code.run image.address code cpu).memory = memory) :
    ArrivesAt image.rom (Code.size code) cpu (cpu.pc + Code.size code) memory := by
  obtain ⟨hSteps, hPc⟩ := steps_run h hAt hStraight
  have := arrivesAt_of_steps hSteps
  rwa [hPc, hMemory] at this

theorem arrivesAt_goto {name : String} (hAt : Code.At program cpu.pc (gotoCode name)) :
    ArrivesAt image.rom (Code.size (gotoCode name)) cpu (image.address name).toNat cpu.memory := by
  have hSplit : gotoCode name = [symbol name] ++ branch .zero .JMP :: [] := rfl
  rw [hSplit] at hAt
  exact arrivesAt_of_steps (steps_branch h hAt rfl)

theorem arrivesAt_ifGoto {name : String} (hAt : Code.At program cpu.pc (ifGotoCode name)) :
    ArrivesAt image.rom (Code.size (ifGotoCode name)) cpu
      (if cpu.memory.pop.1 = 0 then cpu.pc + Code.size (ifGotoCode name)
       else (image.address name).toNat)
      cpu.memory.pop.2 := by
  have hSplit : ifGotoCode name = (popD ++ [symbol name]) ++ branch .d .JNE :: [] := rfl
  have hSteps := steps_branch h (hSplit ▸ hAt) rfl
  rw [Code.run_append, run_popD (Image.fixedAddresses h)] at hSteps
  have hArrives := arrivesAt_of_steps hSteps
  have hSize : Code.size (ifGotoCode name) = 5 := rfl
  have hCount : Code.size (popD ++ [symbol name]) + 1 = 5 := rfl
  rw [perform_branch, hCount] at hArrives
  rw [hSize]
  by_cases hZero : cpu.memory.pop.1 = 0
  · rw [if_pos hZero]
    simpa [Comp.eval, Jump.taken, hZero] using hArrives
  · rw [if_neg hZero]
    simpa [Comp.eval, Jump.taken, hZero] using hArrives

theorem arrivesAt_call {name back : String} {arguments : Word}
    (hAt : Code.At program cpu.pc (callCode name arguments back)) :
    ArrivesAt image.rom (Code.size (callCode name arguments back)) cpu (image.address name).toNat
      (cpu.memory.call .pushUnder
        (UInt16.ofNat (cpu.pc + Code.size (callCode name arguments back))) arguments) := by
  have hBack : (image.address back).toNat = cpu.pc + Code.size (callCode name arguments back) := by
    have hLabel : callCode name arguments back =
        (callSetup arguments back ++ [symbol name, branch .zero .JMP]) ++ [label back] := by
      rw [callCode_eq, List.append_assoc]
      rfl
    rw [hLabel] at hAt
    rw [Image.address_label h hAt.right, hLabel, Code.size_append _ [label back]]
    rfl
  have hSplit : callCode name arguments back =
      (callSetup arguments back ++ [symbol name]) ++ branch .zero .JMP :: [label back] := by
    rw [callCode_eq, List.append_assoc]
    rfl
  rw [hSplit] at hAt
  have hSteps := steps_branch h hAt rfl
  rw [Code.run_append, perform_jump] at hSteps
  have hArrives := arrivesAt_of_steps hSteps
  have hCount : Code.size (callSetup arguments back ++ [symbol name]) + 1 =
      Code.size (callCode name arguments back) := by
    rw [hSplit, Code.size_append _ (branch .zero .JMP :: [label back])]
    rfl
  rw [← hBack, UInt16.ofNat_toNat, ← run_callSetup (Image.fixedAddresses h), ← hCount]
  dsimp only at hArrives
  exact hArrives

theorem arrivesAt_ret (hAt : Code.At program cpu.pc returnCode) :
    ArrivesAt image.rom (Code.size returnCode) cpu (cpu.memory.ret.get back).toNat
      cpu.memory.ret := by
  have hFixed := Image.fixedAddresses h
  have hSplit : returnCode =
      (returnSetup ++ [symbol returnRegister, set .A (.val .M)]) ++ branch .zero .JMP :: [] := by
    rw [returnCode_eq, List.append_assoc]
    rfl
  rw [hSplit] at hAt
  have hSteps := steps_branch h hAt rfl
  rw [Code.run_append, perform_returnJump hFixed.back] at hSteps
  have hArrives := arrivesAt_of_steps hSteps
  have hCount : Code.size returnCode =
      Code.size (returnSetup ++ [symbol returnRegister, set .A (.val .M)]) + 1 := by
    rw [hSplit, Code.size_append _ [branch .zero .JMP]]
    rfl
  rw [← run_returnSetup hFixed, hCount]
  dsimp only at hArrives
  exact hArrives

/-! ### Comparisons -/

/-- A comparison comes to the point where its branches meet with the truth value in `D`. -/
theorem steps_branches {op : Comparison} {holds meet : String}
    (hAt : Code.At program cpu.pc (op.code holds meet)) :
    ∃ n last, Steps image.rom (7 + n) cpu last ∧ last.pc = cpu.pc + 11 ∧
      last.memory = cpu.memory.pop.2 ∧
      last.d = Word.ofBool (op.holds (cpu.memory.pop.2.top - cpu.memory.pop.1)) := by
  obtain ⟨hFalse, hTrue, hTail⟩ := compare_at hAt
  rw [compareCode_eq] at hAt
  have hHolds : (image.address holds).toNat = cpu.pc + 10 := Image.address_label h hTrue
  have hMeet : (image.address meet).toNat = cpu.pc + 11 := Image.address_label h hTail
  -- both branches start from the difference in `D`
  have hDifference := steps_branch h hAt rfl
  rw [Code.run_append, run_popD (Image.fixedAddresses h), perform_branch] at hDifference
  have hLowered : cpu.memory.pop.2.get sp = cpu.memory.get sp - 1 := Memory.get_set_self _ _ _
  simp only [Code.run_set, Code.run_symbol, Code.run_nil, store_A, store_D, Comp.eval,
    Operand.value, taken_jump] at hDifference
  rw [← hLowered, ← Memory.top] at hDifference
  cases hCase : op.holds (cpu.memory.pop.2.top - cpu.memory.pop.1) with
  | true =>
    rw [hCase, if_pos rfl, hHolds] at hDifference
    let middle : Cpu := ⟨image.address holds, cpu.memory.pop.2.top - cpu.memory.pop.1,
      cpu.pc + 10, cpu.memory.pop.2⟩
    obtain ⟨hSteps, hPc⟩ := steps_run h (show Code.At program middle.pc _ from hTrue.left) rfl
    exact ⟨_, _, hDifference.trans hSteps, hPc, rfl, rfl⟩
  | false =>
    rw [hCase, if_neg (by simp)] at hDifference
    let middle : Cpu := ⟨image.address holds, cpu.memory.pop.2.top - cpu.memory.pop.1,
      cpu.pc + 7, cpu.memory.pop.2⟩
    have hSteps := steps_branch h (show Code.At program middle.pc _ from hFalse) rfl
    exact ⟨_, _, hDifference.trans hSteps, hMeet, rfl, rfl⟩

theorem arrivesAt_compare {op : Comparison} {holds meet : String}
    (hAt : Code.At program cpu.pc (op.code holds meet)) :
    ∃ n, ArrivesAt image.rom (7 + n) cpu (cpu.pc + Code.size (op.code holds meet))
      (cpu.memory.compare op) := by
  obtain ⟨n, middle, hBranches, hPc, hMemory, hValue⟩ := steps_branches h hAt
  have hTail : Code.At program middle.pc (compareTail meet) := by
    rw [hPc]
    exact (compare_at hAt).2.2
  obtain ⟨hSteps, hEnd⟩ := steps_run h hTail rfl
  refine ⟨n + 3, ?_⟩
  have hArrives := arrivesAt_of_steps (hBranches.trans hSteps)
  rw [hEnd, hPc] at hArrives
  simp [compareTail, (Image.fixedAddresses h).sp, Comp.eval, Operand.value, hMemory,
    hValue] at hArrives
  exact hArrives

end Loaded

end Cpu

end HackVm
