import HackVm.Proofs.CommandRun

/-!
# Watching the stack

Which words does a run use as the stack?  Every word of memory is reached through `A`, so this is
told by where the address in `A` comes from (`Origin`).  A machine that is watched (`Watch`) keeps
account of that, of the words that it touches through an address from `SP`, and of the words into
which it stores through another pointer.  It runs like any other machine (`Watch.cpu_iterate`).

* `Watch.iterate_watch`: what is seen while the machine runs through straight code.
* `Watch.Sees`: where a watched machine comes to, and what is seen on the way.  There is one such
  statement for each of the commands that work on the stack alone.
-/

namespace HackVm

open Instruction Register

/-- Whether the computation reads the word that `A` points at. -/
def Comp.readsMemory : Comp → Bool
  | val x | not x | neg x | succ x | pred x | add x | sub x | rsub x | and x | or x => x = .M
  | zero | one | minusOne | d | notD | negD | succD | predD => false

/-- Where the address in `A` comes from. -/
inductive Origin
  /-- It was loaded, as a number or as the address of a symbol. -/
  | loaded
  /-- It was computed from the word of `SP`. -/
  | stack
  /-- It was computed from something else. -/
  | pointer
  deriving DecidableEq, Repr

/-- The state of a machine, and what was seen of its run. -/
structure Watch where
  cpu : Cpu
  origin : Origin := .loaded
  /-- The addresses from `SP` through which memory was read or written, in order. -/
  touched : List Word := []
  /-- The addresses from other pointers through which memory was written, in order. -/
  stored : List Word := []

namespace Watch

/-- Where the word comes from that a computation stores in `A`. -/
def computed (watch : Watch) (comp : Comp) : Origin :=
  if comp.readsMemory then
    if Memory.cell watch.cpu.a = Memory.cell sp then .stack else .pointer
  else
    match comp with
    | .pred .A | .succ .A => watch.origin
    | _ => .pointer

/-- Runs one instruction. -/
def perform (watch : Watch) : Op → Watch
  | .load value => { watch with cpu := watch.cpu.perform (.load value), origin := .loaded }
  | .compute dest comp jump =>
    let writes := dest.any Dest.storesM
    let touches := watch.origin = .stack ∧ (comp.readsMemory || writes)
    let stores := watch.origin = .pointer ∧ writes
    { cpu := watch.cpu.perform (.compute dest comp jump)
      origin := if dest.any Dest.storesA then watch.computed comp else watch.origin
      touched := watch.touched ++ if touches then [watch.cpu.a] else []
      stored := watch.stored ++ if stores then [watch.cpu.a] else [] }

/-- Runs the next instruction, if there is one. -/
def step (rom : Array Op) (watch : Watch) : Watch :=
  match rom[watch.cpu.pc]? with
  | some op => watch.perform op
  | none => watch

/-! ### A watched machine is a machine -/

variable {rom : Array Op} {watch : Watch}

@[simp] theorem cpu_perform (op : Op) : (watch.perform op).cpu = watch.cpu.perform op := by
  cases op <;> rfl

theorem cpu_step : (watch.step rom).cpu = watch.cpu.step rom := by
  unfold step Cpu.step
  cases rom[watch.cpu.pc]? with
  | none => rfl
  | some op => exact cpu_perform op

theorem cpu_iterate (n : Nat) :
    ((step rom)^[n] watch).cpu = (Cpu.step rom)^[n] watch.cpu := by
  induction n generalizing watch with
  | zero => rfl
  | succ n ih => rw [Function.iterate_succ_apply, Function.iterate_succ_apply, ih, cpu_step]

theorem step_eq_perform {op : Op} (h : rom[watch.cpu.pc]? = some op) :
    watch.step rom = watch.perform op := by
  rw [step, h]

/-- What was seen stays seen. -/
theorem step_prefix :
    watch.touched <+: (watch.step rom).touched ∧ watch.stored <+: (watch.step rom).stored := by
  unfold step
  cases rom[watch.cpu.pc]? with
  | none => exact ⟨List.prefix_rfl, List.prefix_rfl⟩
  | some op =>
    cases op with
    | load value => exact ⟨List.prefix_rfl, List.prefix_rfl⟩
    | compute dest comp jump => exact ⟨List.prefix_append _ _, List.prefix_append _ _⟩

theorem iterate_prefix (n : Nat) :
    watch.touched <+: ((step rom)^[n] watch).touched ∧
      watch.stored <+: ((step rom)^[n] watch).stored := by
  induction n with
  | zero => exact ⟨List.prefix_rfl, List.prefix_rfl⟩
  | succ n ih =>
    rw [Function.iterate_succ_apply']
    exact ⟨ih.1.trans step_prefix.1, ih.2.trans step_prefix.2⟩

theorem iterate_of_finished (h : rom.size ≤ watch.cpu.pc) (n : Nat) :
    (step rom)^[n] watch = watch := by
  apply Function.iterate_fixed
  rw [step, Array.getElem?_eq_none h]

/-- What is ever seen was seen when the machine is finished. -/
theorem seen_of_finished {n : Nat} (h : rom.size ≤ ((step rom)^[n] watch).cpu.pc) (m : Nat) :
    ((step rom)^[m] watch).touched <+: ((step rom)^[n] watch).touched ∧
      ((step rom)^[m] watch).stored <+: ((step rom)^[n] watch).stored := by
  rcases Nat.le_total m n with hLe | hLe
  · obtain ⟨k, rfl⟩ := Nat.exists_eq_add_of_le' hLe
    rw [Function.iterate_add_apply]
    exact iterate_prefix k
  · obtain ⟨k, rfl⟩ := Nat.exists_eq_add_of_le' hLe
    rw [Function.iterate_add_apply, iterate_of_finished h]
    exact ⟨List.prefix_rfl, List.prefix_rfl⟩

end Watch

/-- The machine after so many steps, and what was seen of them. -/
def Machine.watch (machine : Machine) (n : Nat) : Watch :=
  (Watch.step machine.image.rom)^[n] { cpu := machine.cpu }

theorem Machine.cpu_watch (machine : Machine) (n : Nat) :
    (machine.watch n).cpu = (Machine.step^[n] machine).cpu := by
  rw [watch, Watch.cpu_iterate, Machine.iterate_step]

/-! ### Straight code -/

/-- What is seen when all instructions of code are performed, one after the other. -/
def Code.watch (address : String → Word) (code : Code) (watch : Watch) : Watch :=
  (Code.ops address code).foldl Watch.perform watch

section Pieces

variable {address : String → Word} (watch : Watch) (code rest : Code)

theorem Code.watch_append :
    Code.watch address (code ++ rest) watch =
      Code.watch address rest (Code.watch address code watch) := by
  rw [Code.watch, Code.ops_append, List.foldl_append]
  rfl

theorem Code.cpu_watch : (Code.watch address code watch).cpu = Code.run address code watch.cpu := by
  rw [Code.watch, Code.run]
  induction Code.ops address code generalizing watch with
  | nil => rfl
  | cons op ops ih => rw [List.foldl_cons, List.foldl_cons, ih, Watch.cpu_perform]

@[simp] theorem Code.watch_nil : Code.watch address [] watch = watch := rfl

@[simp] theorem Code.watch_symbol (name : String) :
    Code.watch address (symbol name :: code) watch =
      Code.watch address code
        { watch with
          cpu := { watch.cpu with a := address name, pc := watch.cpu.pc + 1 }
          origin := .loaded } := rfl

@[simp] theorem Code.watch_number (value : Word) :
    Code.watch address (number value :: code) watch =
      Code.watch address code
        { watch with
          cpu := { watch.cpu with a := value, pc := watch.cpu.pc + 1 }
          origin := .loaded } := rfl

@[simp] theorem Code.watch_set (dest : Dest) (comp : Comp) :
    Code.watch address (set dest comp :: code) watch =
      Code.watch address code
        { cpu := { watch.cpu.store dest
              (comp.eval watch.cpu.a watch.cpu.d (watch.cpu.memory.get watch.cpu.a)) with
            pc := watch.cpu.pc + 1 }
          origin := if dest.storesA then watch.computed comp else watch.origin
          touched := watch.touched ++
            if watch.origin = .stack ∧ (comp.readsMemory || dest.storesM) then [watch.cpu.a] else []
          stored := watch.stored ++
            if watch.origin = .pointer ∧ dest.storesM then [watch.cpu.a] else [] } := rfl

@[simp] theorem Code.watch_label (name : String) :
    Code.watch address (label name :: code) watch = Code.watch address code watch := rfl

variable (h : FixedAddresses address)

include h

theorem watch_popD : Code.watch address popD watch =
    { cpu := Code.run address popD watch.cpu
      origin := .stack
      touched := watch.touched ++ [watch.cpu.memory.get sp - 1]
      stored := watch.stored } := by
  simp [popD, h.sp, Watch.computed, Comp.readsMemory, Dest.storesM, Dest.storesA, Comp.eval,
    Operand.value]

theorem watch_pushD : Code.watch address pushD watch =
    { cpu := Code.run address pushD watch.cpu
      origin := .stack
      touched := watch.touched ++ [watch.cpu.memory.get sp]
      stored := watch.stored } := by
  simp [pushD, h.sp, Watch.computed, Comp.readsMemory, Dest.storesM, Dest.storesA, Comp.eval,
    Operand.value]

omit h in
theorem Code.watch_load (place : Address) :
    ∃ word, Code.watch address (load place :: code) watch =
      Code.watch address code
        { watch with
          cpu := { watch.cpu with a := word, pc := watch.cpu.pc + 1 }
          origin := .loaded } := by
  cases place with
  | symbol name => exact ⟨address name, rfl⟩
  | number value => exact ⟨value, rfl⟩

omit h in
/-- Reading a place touches nothing. -/
theorem watch_read (place : Place) :
    (Code.watch address place.read watch).touched = watch.touched ∧
      (Code.watch address place.read watch).stored = watch.stored := by
  cases place with
  | literal value => simp [Place.read, Comp.readsMemory, Dest.storesM, Dest.storesA]
  | based register offset =>
    simp [Place.read, Watch.computed, Comp.readsMemory, Dest.storesM, Dest.storesA]
  | fixed place =>
    obtain ⟨word, hLoad⟩ := Code.watch_load watch [set .D (.val .M)] place
    rw [Place.read, hLoad]
    simp [Dest.storesM, Dest.storesA]

theorem watch_pushCode {scope : Scope} {segment : Segment} {index : Word} {code : Code}
    (hCode : pushCode scope segment index = .ok code) :
    (Code.watch address code watch).touched = watch.touched ++ [watch.cpu.memory.get sp] ∧
      (Code.watch address code watch).stored = watch.stored := by
  obtain ⟨place, hPlace, rfl⟩ := pushCode_eq_ok hCode
  obtain ⟨-, hMemory, -⟩ := run_read h watch.cpu hPlace
  obtain ⟨hTouched, hStored⟩ := @watch_read address watch place
  rw [Code.watch_append, watch_pushD _ h, Code.cpu_watch, hTouched, hStored, hMemory]
  exact ⟨rfl, rfl⟩

theorem watch_storeDirect (place : Address) :
    (Code.watch address (Target.direct place).store watch).touched =
        watch.touched ++ [watch.cpu.memory.get sp - 1] ∧
      (Code.watch address (Target.direct place).store watch).stored = watch.stored := by
  rw [Target.store, Code.watch_append, watch_popD _ h]
  obtain ⟨word, hLoad⟩ := @Code.watch_load address
    { cpu := Code.run address popD watch.cpu
      origin := .stack
      touched := watch.touched ++ [watch.cpu.memory.get sp - 1]
      stored := watch.stored } [set .M .d] place
  rw [hLoad]
  simp [Dest.storesA]

/-- A computed address is a pointer, and the value is stored there. -/
theorem watch_storeComputed :
    (Code.watch address Target.computed.store watch).touched =
        watch.touched ++ [watch.cpu.memory.get sp - 1] ∧
      (Code.watch address Target.computed.store watch).stored =
        watch.stored ++ [watch.cpu.d] := by
  have hPointer : (watch.cpu.memory.set target watch.cpu.d).get sp = watch.cpu.memory.get sp :=
    Memory.get_set_of_ne (by decide) _ _
  have hKept : (watch.cpu.memory.set target watch.cpu.d).pop.2.get target = watch.cpu.d := by
    rw [Memory.pop, Memory.get_set_of_ne (by decide), Memory.get_set_self]
  have hApart : Memory.cell target ≠ Memory.cell sp := by decide
  rw [Target.store, Code.watch_append, Code.watch_append, watch_popD _ h]
  simp [h.target, run_popD h, Watch.computed, Comp.readsMemory, Dest.storesM, Dest.storesA,
    Comp.eval, Operand.value, hKept, hPointer, hApart]

theorem watch_popCode {scope : Scope} {segment : Segment} {index : Word} {code : Code}
    (hCode : popCode scope segment index = .ok code) :
    (Code.watch address code watch).touched = watch.touched ++ [watch.cpu.memory.get sp - 1] ∧
      (Code.watch address code watch).stored =
        watch.stored ++
          (segment.base?.map fun register => watch.cpu.memory.get register + index).toList := by
  obtain ⟨place, hPlace, target, find, hTarget, rfl⟩ := popCode_eq_ok hCode
  cases hPlace with
  | literal => cases hTarget
  | named =>
    cases hTarget
    rw [List.nil_append, Segment.base?, Option.map_none, Option.toList_none, List.append_nil]
    exact watch_storeDirect watch h _
  | slot _ hBase _ =>
    cases hTarget
    rw [List.nil_append, hBase, Option.map_none, Option.toList_none, List.append_nil]
    exact watch_storeDirect watch h _
  | based hBase hName =>
    cases hTarget
    obtain ⟨hTouched, hStored⟩ := watch_storeComputed (Code.watch address _ watch) h
    rw [Code.watch_append, hTouched, hStored, hBase]
    simp [h.base _ hName, Comp.readsMemory, Dest.storesM, Dest.storesA, Comp.eval, Operand.value]

theorem watch_unary (op : UnaryOp) :
    (Code.watch address op.code watch).touched =
        watch.touched ++ [watch.cpu.memory.get sp - 1] ∧
      (Code.watch address op.code watch).stored = watch.stored := by
  cases op <;>
    simp [UnaryOp.code, UnaryOp.comp, h.sp, Watch.computed, Comp.readsMemory, Dest.storesM,
      Dest.storesA, Comp.eval, Operand.value]

theorem watch_binary (op : BinaryOp) :
    (Code.watch address op.code watch).touched =
        watch.touched ++ [watch.cpu.memory.get sp - 1, watch.cpu.memory.get sp - 1 - 1] ∧
      (Code.watch address op.code watch).stored = watch.stored := by
  rw [BinaryOp.code, Code.watch_append, watch_popD _ h]
  cases op <;>
    simp [BinaryOp.comp, run_popD h, Watch.computed, Comp.readsMemory, Dest.storesM,
      Dest.storesA, Comp.eval, Operand.value]

end Pieces

/-! ### Watching the machine -/

namespace Watch

section Loaded

variable {program : Code} {image : Image} (hLoad : Image.load program = .ok image)

include hLoad

/-- **A watched machine runs through straight code**, and sees what is seen in the code. -/
theorem iterate_watch {code : Code} {watch : Watch} (hAt : Code.At program watch.cpu.pc code)
    (hStraight : Code.isStraight code = true) :
    (step image.rom)^[Code.size code] watch = Code.watch image.address code watch := by
  have hStep : ∀ (watch : Watch) (op : Op), image.rom[watch.cpu.pc]? = some op →
      watch.step image.rom = watch.perform op := fun _ _ => step_eq_perform
  have hCpu : ∀ (watch : Watch) (op : Op), (watch.perform op).cpu = watch.cpu.perform op :=
    fun _ => cpu_perform
  exact (Code.iterate_straight hLoad hStep hCpu hAt hStraight).1

/-- A program of straight code shows no more than is seen in its code. -/
theorem seen_of_straight {watch : Watch} (hPc : watch.cpu.pc = 0)
    (hStraight : Code.isStraight program = true) (n : Nat) :
    ((step image.rom)^[n] watch).touched <+: (Code.watch image.address program watch).touched ∧
      ((step image.rom)^[n] watch).stored <+: (Code.watch image.address program watch).stored := by
  have hAt : Code.At program watch.cpu.pc program := ⟨[], [], by simp, by rw [hPc]; rfl⟩
  have hEnd := iterate_watch hLoad hAt hStraight
  have hFinished :
      image.rom.size ≤ ((step image.rom)^[Code.size program] watch).cpu.pc := by
    rw [hEnd, Code.cpu_watch, (Cpu.steps_run hLoad hAt hStraight).2, hPc, Nat.zero_add]
    exact Nat.le_of_eq (Image.size_rom hLoad)
  rw [← hEnd]
  exact seen_of_finished hFinished n

theorem iterate_branch {code rest : Code} {watch : Watch} {comp : Comp} {jump : Jump}
    (hAt : Code.At program watch.cpu.pc (code ++ Instruction.branch comp jump :: rest))
    (hStraight : Code.isStraight code = true) :
    (step image.rom)^[Code.size code + 1] watch =
      (Code.watch image.address code watch).perform (.compute none comp (some jump)) := by
  have hBranch := hAt.right
  rw [← (Cpu.steps_run hLoad hAt.left hStraight).2, ← Code.cpu_watch] at hBranch
  rw [Function.iterate_succ_apply', iterate_watch hLoad hAt.left hStraight,
    step_eq_perform (Image.getElem?_rom hLoad hBranch rfl)]

end Loaded

/-- The machine comes to the address `pc` with this memory, and on the way it touches these words of
the stack and stores through these pointers. -/
structure Sees (rom : Array Op) (n : Nat) (watch : Watch) (pc : Nat) (memory : Memory)
    (touched stored : List Word) : Prop where
  pc_eq : ((step rom)^[n] watch).cpu.pc = pc
  memory_eq : ((step rom)^[n] watch).cpu.memory = memory
  touched_eq : ((step rom)^[n] watch).touched = watch.touched ++ touched
  stored_eq : ((step rom)^[n] watch).stored = watch.stored ++ stored

section Loaded

variable {program : Code} {image : Image} {watch : Watch} (hLoad : Image.load program = .ok image)

include hLoad

theorem sees_straight {code : Code} {memory : Memory} {touched stored : List Word}
    (hAt : Code.At program watch.cpu.pc code) (hStraight : Code.isStraight code = true)
    (hMemory : (Code.run image.address code watch.cpu).memory = memory)
    (hTouched : (Code.watch image.address code watch).touched = watch.touched ++ touched)
    (hStored : (Code.watch image.address code watch).stored = watch.stored ++ stored) :
    Sees image.rom (Code.size code) watch (watch.cpu.pc + Code.size code) memory touched
      stored := by
  have hArrives := Cpu.arrivesAt_straight hLoad hAt hStraight hMemory
  constructor
  · rw [cpu_iterate]
    exact hArrives.pc_eq
  · rw [cpu_iterate]
    exact hArrives.memory_eq
  · rw [iterate_watch hLoad hAt hStraight, hTouched]
  · rw [iterate_watch hLoad hAt hStraight, hStored]

theorem watch_compareTail (meet : String) :
    Code.watch image.address (Cpu.compareTail meet) watch =
      { cpu := Code.run image.address (Cpu.compareTail meet) watch.cpu
        origin := .stack
        touched := watch.touched ++ [watch.cpu.memory.get sp - 1]
        stored := watch.stored } := by
  simp [Cpu.compareTail, (Image.fixedAddresses hLoad).sp, computed, Comp.readsMemory,
    Dest.storesM, Dest.storesA, Comp.eval, Operand.value]

/-- Where a comparison branches, the difference is in `D` and both values were touched. -/
theorem iterate_difference {op : Comparison} {holds meet : String}
    (hAt : Code.At program watch.cpu.pc (op.code holds meet)) :
    (step image.rom)^[7] watch =
      { cpu :=
          { a := image.address holds
            d := watch.cpu.memory.pop.2.top - watch.cpu.memory.pop.1
            pc := if op.holds (watch.cpu.memory.pop.2.top - watch.cpu.memory.pop.1) then
              (image.address holds).toNat else watch.cpu.pc + 7
            memory := watch.cpu.memory.pop.2 }
        origin := .loaded
        touched := watch.touched ++
          [watch.cpu.memory.get sp - 1, watch.cpu.memory.get sp - 1 - 1]
        stored := watch.stored } := by
  have hFixed := Image.fixedAddresses hLoad
  have hLowered : watch.cpu.memory.pop.2.get sp = watch.cpu.memory.get sp - 1 :=
    Memory.get_set_self _ _ _
  rw [Cpu.compareCode_eq] at hAt
  have hBranch := iterate_branch hLoad hAt rfl
  have hCount :
      Code.size (popD ++ [.set .A (.pred .A), .set .D (.rsub .M), symbol holds]) + 1 = 7 := rfl
  rw [Code.watch_append, watch_popD _ hFixed, run_popD hFixed, hCount] at hBranch
  rw [hBranch]
  simp [perform, Cpu.perform_branch, Cpu.taken_jump, computed, Comp.readsMemory, Dest.storesM,
    Dest.storesA, Comp.eval, Operand.value, Memory.top, hLowered]

/-- Where the branches of a comparison meet, the truth value is in `D`. -/
theorem iterate_branches {op : Comparison} {holds meet : String}
    (hAt : Code.At program watch.cpu.pc (op.code holds meet)) :
    ∃ n met, (step image.rom)^[n] watch = met ∧ met.cpu.pc = watch.cpu.pc + 11 ∧
      met.cpu.d = Word.ofBool (op.holds (watch.cpu.memory.pop.2.top - watch.cpu.memory.pop.1)) ∧
      met.cpu.memory = watch.cpu.memory.pop.2 ∧
      met.touched = watch.touched ++
        [watch.cpu.memory.get sp - 1, watch.cpu.memory.get sp - 1 - 1] ∧
      met.stored = watch.stored := by
  have hDifference := iterate_difference hLoad hAt
  obtain ⟨hFalse, hTrue, hTail⟩ := Cpu.compare_at hAt
  have hHolds : (image.address holds).toNat = watch.cpu.pc + 10 := Image.address_label hLoad hTrue
  have hMeet : (image.address meet).toNat = watch.cpu.pc + 11 := Image.address_label hLoad hTail
  cases hCase : op.holds (watch.cpu.memory.pop.2.top - watch.cpu.memory.pop.1) with
  | true =>
    rw [hCase, if_pos rfl, hHolds] at hDifference
    have hHere : Code.At program ((step image.rom)^[7] watch).cpu.pc
        [label holds, .set .D .minusOne] := by
      rw [hDifference]
      exact hTrue.left
    have hBranch := iterate_watch hLoad hHere rfl
    rw [← Function.iterate_add_apply, hDifference] at hBranch
    refine ⟨_, _, hBranch, ?_⟩
    simp [Comp.readsMemory, Dest.storesM, Dest.storesA, Comp.eval, Word.ofBool]
  | false =>
    rw [hCase, if_neg (by simp)] at hDifference
    have hHere : Code.At program ((step image.rom)^[7] watch).cpu.pc
        ([.set .D .zero, symbol meet] ++ branch .zero .JMP ::
          ([label holds, .set .D .minusOne] ++ Cpu.compareTail meet)) := by
      rw [hDifference]
      exact hFalse
    have hBranch := iterate_branch hLoad hHere rfl
    rw [← Function.iterate_add_apply, hDifference] at hBranch
    refine ⟨_, _, hBranch, ?_⟩
    simp [perform, Cpu.perform_branch, Comp.readsMemory, Dest.storesM, Dest.storesA, Comp.eval,
      Jump.taken, hMeet, Word.ofBool]

/-- A comparison touches the lower of its values twice, once to read it and once to replace it. -/
theorem sees_compare {op : Comparison} {holds meet : String}
    (hAt : Code.At program watch.cpu.pc (op.code holds meet)) :
    ∃ n, Sees image.rom n watch (watch.cpu.pc + Code.size (op.code holds meet))
      (watch.cpu.memory.compare op)
      [watch.cpu.memory.get sp - 1, watch.cpu.memory.get sp - 1 - 1,
        watch.cpu.memory.get sp - 1 - 1] [] := by
  obtain ⟨n, met, hMet, hPc, hValue, hMemory, hTouched, hStored⟩ := iterate_branches hLoad hAt
  have hTail : Code.At program met.cpu.pc (Cpu.compareTail meet) := by
    rw [hPc]
    exact (Cpu.compare_at hAt).2.2
  have hLowered : watch.cpu.memory.pop.2.get sp = watch.cpu.memory.get sp - 1 :=
    Memory.get_set_self _ _ _
  have hRest := iterate_watch hLoad hTail rfl
  rw [← hMet, ← Function.iterate_add_apply, hMet, watch_compareTail hLoad] at hRest
  have hPcEnd := (Cpu.steps_run hLoad hTail rfl).2
  have hSize : Code.size (op.code holds meet) = 11 + Code.size (Cpu.compareTail meet) := rfl
  refine ⟨Code.size (Cpu.compareTail meet) + n, ?_, ?_, ?_, ?_⟩
  · rw [hRest, hPcEnd, hPc, hSize, Nat.add_assoc]
  · rw [hRest]
    simp [Cpu.compareTail, (Image.fixedAddresses hLoad).sp, Comp.eval, Operand.value, hMemory,
      hValue, Memory.compare, Memory.setTop]
  · rw [hRest, hTouched, hMemory, hLowered, List.append_assoc]
    rfl
  · rw [hRest, hStored, List.append_nil]

end Loaded

end Watch

end HackVm
