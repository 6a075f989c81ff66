import HackVm.Code.Command
import HackVm.Proofs.Effect
import HackVm.Proofs.Running

/-!
# The code of commands has their effect

The code of a command, run from its first instruction to the one behind it, does to memory what the
command does (`Memory.push` and the other effects).  What it leaves in the registers `A` and `D`
does not matter, because no code reads them before it has written them.

The code is put together from a few pieces, and each piece has one lemma that gives the whole state
behind it: `run_pushD`, `run_popD`, `run_saveRegister`, `run_restoreRegister`.  They need nothing of
the program but that the fixed symbols have their addresses (`FixedAddresses`).  The place of a
segment is found in one of four ways (`Segment.Has`).
-/

namespace HackVm

open Instruction Register

/-- The fixed symbols that the code of commands uses have their addresses. -/
structure FixedAddresses (address : String → Word) : Prop where
  sp : address "SP" = Register.sp
  lcl : address "LCL" = Register.lcl
  arg : address "ARG" = Register.arg
  this : address "THIS" = Register.this
  that : address "THAT" = Register.that
  target : address popRegister = Register.target
  frame : address frameRegister = Register.frame
  back : address returnRegister = Register.back

theorem Image.fixedAddresses {program : Code} {image : Image}
    (h : Image.load program = .ok image) : FixedAddresses image.address where
  sp := Image.address_fixed h (by decide)
  lcl := Image.address_fixed h (by decide)
  arg := Image.address_fixed h (by decide)
  this := Image.address_fixed h (by decide)
  that := Image.address_fixed h (by decide)
  target := Image.address_fixed h (by decide)
  frame := Image.address_fixed h (by decide)
  back := Image.address_fixed h (by decide)

/-! ### Places -/

/-- The symbols of the registers from which segments count. -/
def baseRegisters : List (String × Word) :=
  [("LCL", lcl), ("ARG", arg), ("THIS", this), ("THAT", that)]

theorem FixedAddresses.base {address : String → Word} (h : FixedAddresses address) :
    ∀ pair ∈ baseRegisters, address pair.1 = pair.2 := by
  simp [baseRegisters, h.lcl, h.arg, h.this, h.that]

/-- The places of segments, by the way in which they are found. -/
inductive Segment.Has (scope : Scope) (index : Word) : Segment → Place → Prop
  | literal : Has scope index constant (.literal index)
  | named : Has scope index static (.fixed (.symbol (scope.variableSymbol index)))
  | based {segment : Segment} {name : String} {register : Word} :
      segment.base? = some register → (name, register) ∈ baseRegisters →
        Has scope index segment (.based name index)
  | slot {segment : Segment} {address : Word} :
      segment ≠ static → segment.base? = none →
        (∀ cell, segment.fixed? index cell = some address) →
          Has scope index segment (.fixed (.number address))

theorem Segment.has_of_place {scope : Scope} {segment : Segment} {index : Word} {place : Place}
    (h : segment.place scope index = .ok place) : segment.Has scope index place := by
  cases segment with
  | constant => cases h; exact .literal
  | static => cases h; exact .named
  | locals => cases h; exact .based rfl (by decide)
  | argument => cases h; exact .based rfl (by decide)
  | this => cases h; exact .based rfl (by decide)
  | that => cases h; exact .based rfl (by decide)
  | pointer =>
    rw [Segment.place, slot] at h
    split at h
    · cases h; exact .slot (by decide) rfl (fun _ => rfl)
    · cases h
  | temp =>
    rw [Segment.place, slot] at h
    split at h
    · cases h; exact .slot (by decide) rfl (fun _ => rfl)
    · cases h

theorem place_of_pushCode {scope : Scope} {segment : Segment} {index : Word} {code : Code}
    (h : pushCode scope segment index = .ok code) :
    ∃ place, segment.place scope index = .ok place ∧ code = place.read ++ pushD := by
  rw [pushCode, Segment.read] at h
  cases hPlace : segment.place scope index with
  | error fault =>
    rw [hPlace] at h
    cases h
  | ok place =>
    rw [hPlace] at h
    exact ⟨place, rfl, (Except.ok.inj h).symm⟩

theorem pushCode_eq_ok {scope : Scope} {segment : Segment} {index : Word} {code : Code}
    (h : pushCode scope segment index = .ok code) :
    ∃ place, segment.Has scope index place ∧ code = place.read ++ pushD := by
  obtain ⟨place, hPlace, hCode⟩ := place_of_pushCode h
  exact ⟨place, Segment.has_of_place hPlace, hCode⟩

theorem place_of_popCode {scope : Scope} {segment : Segment} {index : Word} {code : Code}
    (h : popCode scope segment index = .ok code) :
    ∃ place, segment.place scope index = .ok place ∧
      ∃ target find, place.target? = some (target, find) ∧ code = find ++ target.store := by
  rw [popCode, Segment.target] at h
  cases hPlace : segment.place scope index with
  | error fault =>
    rw [hPlace] at h
    cases h
  | ok place =>
    rw [hPlace] at h
    refine ⟨place, rfl, ?_⟩
    rcases hTarget : place.target? with _ | ⟨target, find⟩
    · simp only [bind, Except.bind, hTarget] at h
      cases h
    · simp only [bind, Except.bind, hTarget] at h
      exact ⟨target, find, rfl, (Except.ok.inj h).symm⟩

theorem popCode_eq_ok {scope : Scope} {segment : Segment} {index : Word} {code : Code}
    (h : popCode scope segment index = .ok code) :
    ∃ place, segment.Has scope index place ∧
      ∃ target find, place.target? = some (target, find) ∧ code = find ++ target.store := by
  obtain ⟨place, hPlace, hCode⟩ := place_of_popCode h
  exact ⟨place, Segment.has_of_place hPlace, hCode⟩

/-! ### Single instructions -/

namespace Code

variable (address : String → Word) (code : Code) (cpu : Cpu)

@[simp] theorem run_nil : run address [] cpu = cpu := rfl

@[simp] theorem run_symbol (name : String) : run address (symbol name :: code) cpu =
    run address code { cpu with a := address name, pc := cpu.pc + 1 } := rfl

@[simp] theorem run_number (value : Word) : run address (number value :: code) cpu =
    run address code { cpu with a := value, pc := cpu.pc + 1 } := rfl

@[simp] theorem run_set (dest : Dest) (comp : Comp) : run address (set dest comp :: code) cpu =
    run address code { cpu.store dest (comp.eval cpu.a cpu.d (cpu.memory.get cpu.a)) with
      pc := cpu.pc + 1 } := rfl

@[simp] theorem run_label (name : String) :
    run address (label name :: code) cpu = run address code cpu := rfl

@[simp] theorem run_comment (text : String) :
    run address (comment text :: code) cpu = run address code cpu := rfl

end Code

namespace Cpu

variable (cpu : Cpu) (value : Word)

@[simp] theorem store_M : cpu.store .M value = { cpu with memory := cpu.memory.set cpu.a value } :=
  rfl

@[simp] theorem store_D : cpu.store .D value = { cpu with d := value } := rfl

@[simp] theorem store_A : cpu.store .A value = { cpu with a := value } := rfl

@[simp] theorem store_AM : cpu.store .AM value =
    { cpu with memory := cpu.memory.set cpu.a value, a := value } := rfl

end Cpu

/-! ### Pieces of code -/

/-- The code of a call up to its jump. -/
def callSetup (arguments : Word) (back : String) : Code :=
  [symbol back, set .D (.val .A)] ++ pushD ++
    savedRegisters.flatMap saveRegister ++
    [symbol "SP", set .D (.val .M), number frameSize, set .D (.sub .A), number arguments,
      set .D (.sub .A), symbol "ARG", set .M .d] ++
    [symbol "SP", set .D (.val .M), symbol "LCL", set .M .d]

theorem callCode_eq (name : String) (arguments : Word) (back : String) :
    callCode name arguments back =
      callSetup arguments back ++ [symbol name, branch .zero .JMP, label back] := by
  simp [callCode, callSetup]

/-- The code of a return up to its jump. -/
def returnSetup : Code :=
  [symbol "LCL", set .D (.val .M), symbol frameRegister, set .M .d] ++
    restoreRegister returnRegister frameSize ++
    popD ++ [symbol "ARG", set .A (.val .M), set .M .d] ++
    [symbol "ARG", set .D (.succ .M), symbol "SP", set .M .d] ++
    restoreRegister "THAT" 1 ++ restoreRegister "THIS" 2 ++
    restoreRegister "ARG" 3 ++ restoreRegister "LCL" 4

theorem returnCode_eq :
    returnCode = returnSetup ++ [symbol returnRegister, set .A (.val .M), branch .zero .JMP] := rfl

section Pieces

variable {address : String → Word} (h : FixedAddresses address) (cpu : Cpu)

include h

theorem run_pushD : Code.run address pushD cpu =
    { a := cpu.memory.get sp, d := cpu.d, pc := cpu.pc + 4,
      memory := cpu.memory.pushUnder cpu.d } := by
  simp [pushD, h.sp, Comp.eval, Operand.value, Memory.pushUnder]

theorem run_popD : Code.run address popD cpu =
    { a := cpu.memory.get sp - 1, d := cpu.memory.pop.1, pc := cpu.pc + 3,
      memory := cpu.memory.pop.2 } := by
  simp [popD, h.sp, Comp.eval, Operand.value, Memory.pop]

theorem run_pushNumber (value : Word) : Code.run address (pushNumber value) cpu =
    { a := cpu.memory.get sp, d := value, pc := cpu.pc + 6,
      memory := cpu.memory.pushUnder value } := by
  rw [pushNumber, Code.run_append, run_pushD h]
  simp [Comp.eval, Operand.value]

theorem run_saveRegister {name : String} {register : Word} (hName : address name = register) :
    Code.run address (saveRegister name) cpu =
      { a := cpu.memory.get sp, d := cpu.memory.get register, pc := cpu.pc + 6,
        memory := cpu.memory.save .pushUnder register } := by
  rw [saveRegister, Code.run_append, run_pushD h]
  simp [Comp.eval, Operand.value, hName, Memory.save]

theorem run_restoreRegister {name : String} {register : Word} (hName : address name = register)
    (distance : Word) :
    Code.run address (restoreRegister name distance) cpu =
      { a := register, d := cpu.memory.get (cpu.memory.get frame - distance), pc := cpu.pc + 7,
        memory := cpu.memory.restore register distance } := by
  simp [restoreRegister, Comp.eval, Operand.value, hName, h.frame, Memory.restore]

/-! ### Straight commands -/

theorem run_unary (op : UnaryOp) :
    (Code.run address op.code cpu).memory = cpu.memory.unary op := by
  cases op <;>
    simp [UnaryOp.code, UnaryOp.comp, h.sp, Comp.eval, Operand.value, Memory.unary, Memory.setTop,
      Memory.top, UnaryOp.value]

theorem run_binary (op : BinaryOp) :
    (Code.run address op.code cpu).memory = cpu.memory.binary op := by
  rw [BinaryOp.code, Code.run_append, run_popD h]
  cases op <;>
    simp [BinaryOp.comp, Comp.eval, Operand.value, Memory.binary, Memory.setTop, Memory.top,
      Memory.pop, BinaryOp.value, UInt16.add_comm, UInt16.and_comm, UInt16.or_comm]

omit h in
theorem run_readBased {name : String} {register : Word} (hName : address name = register)
    (offset : Word) :
    Code.run address (Place.based name offset).read cpu =
      { a := cpu.memory.get register + offset,
        d := cpu.memory.get (cpu.memory.get register + offset), pc := cpu.pc + 5,
        memory := cpu.memory } := by
  simp [Place.read, Comp.eval, Operand.value, hName]

/-- Reading a place leaves its word in `D`. -/
theorem run_read {scope : Scope} {segment : Segment} {index : Word} {place : Place}
    (hPlace : segment.Has scope index place) :
    Code.isStraight place.read = true ∧ (Code.run address place.read cpu).memory = cpu.memory ∧
      (Code.run address place.read cpu).d =
        cpu.memory.read segment index (address (scope.variableSymbol index)) := by
  cases hPlace with
  | literal => exact ⟨rfl, rfl, rfl⟩
  | named => exact ⟨rfl, rfl, rfl⟩
  | based hBase hName =>
    rw [run_readBased cpu (h.base _ hName), Memory.read, hBase]
    exact ⟨rfl, rfl, rfl⟩
  | slot _ hBase hFixed =>
    rw [Memory.read, hBase, hFixed]
    exact ⟨rfl, rfl, rfl⟩

theorem run_pushCode {scope : Scope} {segment : Segment} {index : Word} {code : Code}
    (hCode : pushCode scope segment index = .ok code) :
    Code.isStraight code = true ∧ (Code.run address code cpu).memory =
      cpu.memory.pushUnder
        (cpu.memory.read segment index (address (scope.variableSymbol index))) := by
  obtain ⟨place, hPlace, rfl⟩ := pushCode_eq_ok hCode
  obtain ⟨hStraight, hMemory, hValue⟩ := run_read h cpu hPlace
  rw [Code.isStraight_append, hStraight, Code.run_append, run_pushD h, hMemory, hValue]
  exact ⟨rfl, rfl⟩

theorem run_storeDirect (place : Address) (word : Word)
    (hPlace : (load place).op? address = some (.load word)) :
    (Code.run address (Target.direct place).store cpu).memory =
      cpu.memory.pop.2.set word cpu.memory.pop.1 := by
  have hLoad : ∀ cpu : Cpu, Code.run address [load place, set .M .d] cpu =
      { cpu with a := word, pc := cpu.pc + 2, memory := cpu.memory.set word cpu.d } := by
    intro cpu
    rw [Code.run, Code.ops, List.filterMap_cons_some hPlace]
    rfl
  rw [Target.store, Code.run_append, run_popD h, hLoad]

/-- The address survives in its register while the value is popped. -/
theorem run_storeComputed :
    (Code.run address Target.computed.store cpu).memory =
      (cpu.memory.set target cpu.d).pop.2.set cpu.d (cpu.memory.set target cpu.d).pop.1 := by
  have hKept : (cpu.memory.set target cpu.d).pop.2.get target = cpu.d := by
    rw [Memory.pop, Memory.get_set_of_ne (by decide), Memory.get_set_self]
  rw [Target.store, Code.run_append, Code.run_append, run_popD h]
  simp [h.target, Comp.eval, Operand.value, hKept]

theorem run_popBased {name : String} {register : Word} (hName : address name = register)
    (offset : Word) :
    (Code.run address ([symbol name, set .D (.val .M), number offset, set .D (.add .A)] ++
        Target.computed.store) cpu).memory =
      ((cpu.memory.set target (cpu.memory.get register + offset)).pop.2.set
        (cpu.memory.get register + offset)
        (cpu.memory.set target (cpu.memory.get register + offset)).pop.1) := by
  rw [Code.run_append, run_storeComputed h]
  simp [Comp.eval, Operand.value, hName]

theorem run_popCode {scope : Scope} {segment : Segment} {index : Word} {code : Code}
    (hCode : popCode scope segment index = .ok code) :
    Code.isStraight code = true ∧ (Code.run address code cpu).memory =
      cpu.memory.popInto segment index (address (scope.variableSymbol index)) := by
  obtain ⟨place, hPlace, target, find, hTarget, rfl⟩ := popCode_eq_ok hCode
  cases hPlace with
  | literal => cases hTarget
  | named =>
    cases hTarget
    exact ⟨rfl, run_storeDirect h cpu _ _ rfl⟩
  | based hBase hName =>
    cases hTarget
    rw [Memory.popInto, hBase]
    exact ⟨rfl, run_popBased h cpu (h.base _ hName) index⟩
  | slot _ hBase hFixed =>
    cases hTarget
    rw [Memory.popInto, hBase, hFixed]
    exact ⟨rfl, run_storeDirect h cpu _ _ rfl⟩

/-- The locals of a function. -/
theorem run_functionCode (name : String) (locals : Word) :
    Code.isStraight (functionCode name locals) = true ∧
      (Code.run address (functionCode name locals) cpu).memory =
        cpu.memory.enter .pushUnder locals := by
  rw [functionCode, Memory.enter]
  refine ⟨?_, ?_⟩
  · have hZero : Code.isStraight (pushNumber 0) = true := rfl
    rw [Code.isStraight, List.all_cons, Bool.and_eq_true, List.all_flatten, List.all_eq_true]
    refine ⟨rfl, fun code hMem => ?_⟩
    rw [List.eq_of_mem_replicate hMem]
    exact hZero
  · rw [Code.run_label]
    induction locals.toNat generalizing cpu with
    | zero => rfl
    | succ n ih =>
      rw [List.replicate_succ, List.flatten_cons, Code.run_append, run_pushNumber h, ih,
        List.replicate_succ]
      rfl

/-! ### Calls and returns -/

theorem run_callSetup (arguments : Word) (back : String) :
    (Code.run address (callSetup arguments back) cpu).memory =
      cpu.memory.call .pushUnder (address back) arguments := by
  have hSaved : savedRegisters.flatMap saveRegister =
      saveRegister "LCL" ++ saveRegister "ARG" ++ saveRegister "THIS" ++ saveRegister "THAT" := rfl
  rw [callSetup, hSaved]
  simp only [Code.run_append, run_pushD h, run_saveRegister h _ h.lcl, run_saveRegister h _ h.arg,
    run_saveRegister h _ h.this, run_saveRegister h _ h.that]
  simp [Comp.eval, Operand.value, h.sp, h.lcl, h.arg, Memory.call, Memory.saveFrame, frameSize]

theorem run_returnSetup : (Code.run address returnSetup cpu).memory = cpu.memory.ret := by
  rw [returnSetup]
  simp only [Code.run_append, run_popD h, run_restoreRegister h _ h.lcl,
    run_restoreRegister h _ h.arg, run_restoreRegister h _ h.this, run_restoreRegister h _ h.that,
    run_restoreRegister h _ h.back]
  simp [Comp.eval, Operand.value, h.sp, h.lcl, h.arg, h.frame, Memory.ret, Memory.putResult,
    frameSize]

end Pieces

end HackVm
