import Mathlib.Data.List.Induction
import HackVm.Proofs.StackHeight
import HackVm.Proofs.StackWatch
import HackVm.Proofs.StaticStorage

/-!
# The height of the stack, told three times

What a command does to the height of the stack is told by its effect, followed by the check and done
by its code.  For the commands that work on the stack alone (`Command.isPlain`) the three agree, on
programs of any length.

The code moves `SP` about as a word of memory like any other, so this takes two conditions on the
run: the words that it touches as the stack lie above the registers, and it stores nothing into the
word of `SP` through a pointer.  Which words these are is what a watched machine sees.

* `Command.slots`, `Command.pointers`: what one command touches and stores through.
* `Site.sees`: the machine sees just that, and `SP` is then raised by what the command leaves and
  lowered by what it takes.
* `StackCheck.height_behind`: what the check knows behind commands of a program without problems.
* `stack_height_followed`: the agreement, behind any number of commands of a program.
-/

namespace HackVm

open Instruction Register

/-! ### Commands that work on the stack alone -/

namespace Command

/-- Whether the command is a `push`, a `pop` or an operator. -/
def isPlain : Command → Bool
  | push .. | pop .. | unary _ | binary _ | compare _ => true
  | label _ | goto _ | ifGoto _ | function .. | call .. | ret => false

/-- By how much the command changes the height of the stack. -/
def growth (command : Command) : Int :=
  command.effect.pushes - command.effect.pops

/-- The words of the stack that the command touches, in order, from the word of `SP` before it. -/
def slots (pointer : Word) : Command → List Word
  | push .. => [pointer]
  | pop .. | unary _ => [pointer - 1]
  | binary _ => [pointer - 1, pointer - 1 - 1]
  | compare _ => [pointer - 1, pointer - 1 - 1, pointer - 1 - 1]
  | _ => []

/-- The addresses that the command computes from the registers of segments and stores through. -/
def pointers (memory : Memory) : Command → List Word
  | pop segment index => (segment.base?.map fun register => memory.get register + index).toList
  | _ => []

/-- The word of `SP` behind the command. -/
def raised (pointer : Word) (command : Command) : Word :=
  pointer - UInt16.ofNat command.effect.pops + UInt16.ofNat command.effect.pushes

theorem raised_push (pointer : Word) (segment : Segment) (index : Word) :
    (push segment index).raised pointer = pointer + 1 := by
  simp [raised, effect]

theorem raised_pop (pointer : Word) (segment : Segment) (index : Word) :
    (pop segment index).raised pointer = pointer - 1 := by
  simp [raised, effect]

theorem raised_unary (pointer : Word) (op : UnaryOp) : (unary op).raised pointer = pointer := by
  simp [raised, effect]

/-- A command that takes two values and leaves one. -/
theorem raised_two {command : Command} (h : command.effect = ⟨2, 1⟩) (pointer : Word) :
    command.raised pointer = pointer - 1 := by
  rw [raised, h]
  grind

/-- Where the words that are touched lie in memory, they are none but those that the command takes
and leaves, and `SP` moves without a carry. -/
theorem raised_of_slots {command : Command} (hPlain : command.isPlain = true) {pointer : Word}
    (h : ∀ slot ∈ command.slots pointer, 256 ≤ slot.toNat ∧ slot.toNat < ramSize) :
    ((command.raised pointer).toNat : Int) = pointer.toNat + command.growth ∧
      ∀ slot ∈ command.slots pointer,
        (pointer.toNat : Int) - command.effect.pops ≤ slot.toNat := by
  have hBound := pointer.toNat_lt
  cases command with
  | push segment index =>
    simp [slots, raised, growth, effect, ramSize, UInt16.toNat_add] at h ⊢
    omega
  | pop segment index =>
    simp [slots, raised, growth, effect, ramSize, UInt16.toNat_sub] at h ⊢
    omega
  | unary op | binary op | compare op =>
    simp [slots, raised, growth, effect, ramSize, UInt16.toNat_sub, UInt16.toNat_add] at h ⊢
    omega
  | _ => cases hPlain

end Command

/-! ### The word of `SP` -/

namespace Memory

theorem get_sp_pushUnder {memory : Memory} (h : cell (memory.get sp) ≠ cell sp) (value : Word) :
    (memory.pushUnder value).get sp = memory.get sp + 1 := by
  rw [pushUnder, get_set_of_ne h, get_set_self]

theorem get_sp_pop (memory : Memory) : memory.pop.2.get sp = memory.get sp - 1 := by
  rw [pop, get_set_self]

theorem get_sp_setTop {memory : Memory} (h : cell (memory.get sp - 1) ≠ cell sp) (value : Word) :
    (memory.setTop value).get sp = memory.get sp := by
  rw [setTop, get_set_of_ne h]

/-- Replacing the value below the top, once that was popped. -/
theorem get_sp_setTop_pop {memory : Memory} (h : cell (memory.get sp - 1 - 1) ≠ cell sp)
    (value : Word) : (memory.pop.2.setTop value).get sp = memory.get sp - 1 := by
  rw [← get_sp_pop] at h
  rw [get_sp_setTop h, get_sp_pop]

/-- No other word of memory is that of `SP`. -/
theorem cell_ne_sp {address : Word} (hPos : 0 < address.toNat) (hLt : address.toNat < ramSize) :
    cell address ≠ cell sp := by
  intro hSame
  have hZero := Fin.ext_iff.mp hSame
  simp only [cell, UInt16.toNat_zero, Nat.zero_mod] at hZero
  rw [Nat.mod_eq_of_lt hLt] at hZero
  exact Nat.ne_of_gt hPos hZero

/-- A fixed word of `pointer` or `temp` is not that of `SP`. -/
theorem cell_slot_ne {base size index : Word} (hIndex : index < size) (hBase : 0 < base.toNat)
    (hSize : base.toNat + size.toNat < ramSize) : cell (base + index) ≠ cell sp := by
  have hLt := UInt16.lt_iff_toNat_lt.mp hIndex
  have hWord : (base + index).toNat = base.toNat + index.toNat := by
    rw [UInt16.toNat_add]
    unfold ramSize at hSize
    omega
  exact cell_ne_sp (by omega) (by omega)

/-- A pop lowers `SP`, unless it stores into the word of `SP` itself. -/
theorem get_sp_popInto {scope : Scope} {segment : Segment} {index word : Word} {code : Code}
    {memory : Memory} (hCode : popCode scope segment index = .ok code)
    (hStatic : segment = .static → cell word ≠ cell sp)
    (hPointer : ∀ address ∈ (Command.pop segment index).pointers memory,
      cell address ≠ cell sp) :
    (memory.popInto segment index word).get sp = memory.get sp - 1 := by
  have hFixed : ∀ {address : Word}, cell address ≠ cell sp →
      (memory.pop.2.set address memory.pop.1).get sp = memory.get sp - 1 := by
    intro address hAddress
    rw [get_set_of_ne hAddress, get_sp_pop]
  have hBased : ∀ {register : Word}, segment.base? = some register →
      (memory.popInto segment index word).get sp = memory.get sp - 1 := by
    intro register hBase
    have hAddress : cell (memory.get register + index) ≠ cell sp :=
      hPointer _ (by simp [Command.pointers, hBase])
    rw [popInto, hBase]
    simp only
    rw [get_set_of_ne hAddress, get_sp_pop, get_set_of_ne (by decide)]
  cases segment with
  | constant => cases hCode
  | static => exact hFixed (hStatic rfl)
  | locals | argument | this | that => exact hBased rfl
  | pointer =>
    by_cases hIndex : index < pointerSize
    · have hCell : cell (3 + index) ≠ cell sp := cell_slot_ne hIndex (by decide) (by decide)
      exact hFixed hCell
    · rw [popCode, Segment.target, Segment.place, Segment.slot, if_neg hIndex] at hCode
      cases hCode
  | temp =>
    by_cases hIndex : index < tempSize
    · have hCell : cell (5 + index) ≠ cell sp := cell_slot_ne hIndex (by decide) (by decide)
      exact hFixed hCell
    · rw [popCode, Segment.target, Segment.place, Segment.slot, if_neg hIndex] at hCode
      cases hCode

end Memory

/-! ### Static variables -/

section Statics

variable {options : Options} {parts : List Part} {image : Image}
  (hLoad : Image.load (programCode options parts) = .ok image)
  (hPlain : ∀ site ∈ sites options parts, site.command.isPlain = true)

include hLoad hPlain

/-- The only labels among plain commands are those of comparisons, which have code before them and
behind them. -/
theorem cell_label_ne {label : String} (h : label ∈ Code.labels (programCode options parts)) :
    Memory.cell (image.address label) ≠ Memory.cell sp := by
  obtain ⟨site, hSite, hLabel⟩ := exists_site_of_label h
  have hAt := Code.at_site hSite
  have hCommand := hPlain site hSite
  obtain ⟨scope, command, address⟩ := site
  rw [Site.labels_code] at hLabel
  cases command with
  | compare op =>
    obtain ⟨-, hTrue, hTail⟩ := Cpu.compare_at
      (show Code.At _ address (op.code scope.trueSymbol scope.endSymbol) from hAt)
    have hFits := Image.le_romSize_of_at hLoad hTail
    have hTailSize : Code.size (Cpu.compareTail scope.endSymbol) = 3 := rfl
    have hAddress : (image.address label).toNat = address + 10 ∨
        (image.address label).toNat = address + 11 := by
      have hNames : label ∈ [scope.trueSymbol, scope.endSymbol] := hLabel
      rcases List.mem_pair.mp hNames with rfl | rfl
      · exact Or.inl (Image.address_label hLoad hTrue)
      · exact Or.inr (Image.address_label hLoad hTail)
    unfold romSize at hFits
    exact Memory.cell_ne_sp (by omega) (by unfold ramSize; omega)
  | push segment index | pop segment index | unary op | binary op => cases hLabel
  | _ => cases hCommand

/-- A static variable of plain commands does not lie in the word of `SP`. -/
theorem cell_static_ne {site : Site} (hSite : site ∈ sites options parts) {symbol : String}
    (hStatic : site.static? = some symbol) :
    Memory.cell (image.address symbol) ≠ Memory.cell sp := by
  by_cases hLabel : symbol ∈ Code.labels (programCode options parts)
  · exact cell_label_ne hLoad hPlain hLabel
  · obtain ⟨k, hk⟩ := allocates_static (Machine.load_of_image hLoad) hSite hStatic hLabel
    have hRoom := hk.lt_ramSize
    rw [Image.address_of_getElem? hk.symbol_eq]
    have hWord : (UInt16.ofNat (variableBase + k)).toNat = variableBase + k := by
      rw [UInt16.toNat_ofNat']
      exact Nat.mod_eq_of_lt (Nat.lt_trans hRoom (by decide))
    rw [← hWord] at hRoom
    exact Memory.cell_ne_sp (by rw [hWord]; exact Nat.add_pos_left (by decide) k) hRoom

end Statics

/-! ### One command -/

namespace Command

variable {scope next : Scope} {segment : Segment} {index : Word} {code : Code}

theorem pushCode_of_code (h : (push segment index).code scope = .ok (code, next)) :
    pushCode scope segment index = .ok code := by
  rw [Command.code] at h
  cases hPush : pushCode scope segment index with
  | ok found => rw [hPush] at h; cases h; rfl
  | error fault => rw [hPush] at h; cases h

theorem popCode_of_code (h : (pop segment index).code scope = .ok (code, next)) :
    popCode scope segment index = .ok code := by
  rw [Command.code] at h
  cases hPop : popCode scope segment index with
  | ok found => rw [hPop] at h; cases h; rfl
  | error fault => rw [hPop] at h; cases h

end Command

/-- **A plain command** touches its slots and stores through its pointers.  If none of these is the
word of `SP`, then `SP` is raised by what the command leaves and lowered by what it takes. -/
theorem Site.sees {program : Code} {image : Image} (hLoad : Image.load program = .ok image)
    {site : Site} {next : Scope} (hCode : site.command.code site.scope = .ok (site.code, next))
    (hPlain : site.command.isPlain = true)
    (hStatic : ∀ symbol, site.static? = some symbol →
      Memory.cell (image.address symbol) ≠ Memory.cell sp)
    {watch : Watch} (hAt : Code.At program watch.cpu.pc site.code) :
    ∃ n memory, watch.Sees image.rom n (watch.cpu.pc + site.size) memory
        (site.command.slots (watch.cpu.memory.get sp))
        (site.command.pointers watch.cpu.memory) ∧
      ((∀ slot ∈ site.command.slots (watch.cpu.memory.get sp),
          Memory.cell slot ≠ Memory.cell sp) →
        (∀ address ∈ site.command.pointers watch.cpu.memory,
          Memory.cell address ≠ Memory.cell sp) →
        memory.get sp = site.command.raised (watch.cpu.memory.get sp)) := by
  have hFixed := Image.fixedAddresses hLoad
  obtain ⟨scope, command, address⟩ := site
  cases command with
  | push segment index =>
    have hPush := Command.pushCode_of_code hCode
    obtain ⟨hStraight, hMemory⟩ := run_pushCode hFixed watch.cpu hPush
    obtain ⟨hTouched, hStored⟩ := watch_pushCode watch hFixed hPush
    rw [← List.append_nil watch.stored] at hStored
    refine ⟨_, _, Watch.sees_straight hLoad hAt hStraight hMemory hTouched hStored, ?_⟩
    intro hSlots _
    rw [Command.raised_push]
    exact Memory.get_sp_pushUnder (hSlots _ List.mem_cons_self) _
  | pop segment index =>
    have hPop := Command.popCode_of_code hCode
    obtain ⟨hStraight, hMemory⟩ := run_popCode hFixed watch.cpu hPop
    obtain ⟨hTouched, hStored⟩ := watch_popCode watch hFixed hPop
    refine ⟨_, _, Watch.sees_straight hLoad hAt hStraight hMemory hTouched hStored, ?_⟩
    intro _ hPointers
    rw [Command.raised_pop]
    refine Memory.get_sp_popInto hPop (fun hSegment => ?_) hPointers
    exact hStatic _ (by rw [Site.static?, hSegment])
  | unary op =>
    obtain ⟨hTouched, hStored⟩ := watch_unary watch hFixed op
    rw [← List.append_nil watch.stored] at hStored
    refine ⟨_, _, Watch.sees_straight hLoad hAt rfl (run_unary hFixed watch.cpu op) hTouched
      hStored, ?_⟩
    intro hSlots _
    rw [Command.raised_unary]
    exact Memory.get_sp_setTop (hSlots _ List.mem_cons_self) _
  | binary op =>
    obtain ⟨hTouched, hStored⟩ := watch_binary watch hFixed op
    rw [← List.append_nil watch.stored] at hStored
    refine ⟨_, _, Watch.sees_straight hLoad hAt rfl (run_binary hFixed watch.cpu op) hTouched
      hStored, ?_⟩
    intro hSlots _
    rw [Command.raised_two rfl]
    exact Memory.get_sp_setTop_pop (hSlots _ (by simp [Command.slots])) _
  | compare op =>
    obtain ⟨n, hSees⟩ := Watch.sees_compare hLoad hAt
    refine ⟨n, _, hSees, ?_⟩
    intro hSlots _
    rw [Command.raised_two rfl]
    exact Memory.get_sp_setTop_pop (hSlots _ (by simp [Command.slots])) _
  | _ => cases hPlain

/-! ### Where commands end -/

/-- How many words of program memory the code of commands takes. -/
def codeSize : List Site → Nat
  | [] => 0
  | site :: rest => site.size + codeSize rest

theorem codeSize_concat (front : List Site) (site : Site) :
    codeSize (front ++ [site]) = codeSize front + site.size := by
  induction front with
  | nil => exact Nat.add_comm _ _
  | cons first front ih => rw [List.cons_append, codeSize, codeSize, ih, Nat.add_assoc]

theorem address_of_sitesFrom_eq {site : Site} {back : List Site} {inputs : List Input} :
    ∀ {front : List Site} {scope : Scope} {address : Nat},
      sitesFrom scope address inputs = front ++ site :: back →
        site.address = address + codeSize front := by
  induction inputs with
  | nil => intro front scope address h; simp [sitesFrom] at h
  | cons input rest ih =>
    intro front scope address h
    cases input with
    | file name => exact ih h
    | statement s =>
      cases front with
      | nil =>
        obtain ⟨rfl, -⟩ := List.cons.inj h
        rfl
      | cons first front =>
        obtain ⟨rfl, hRest⟩ := List.cons.inj h
        rw [ih hRest, Site.next, codeSize, Nat.add_assoc]

theorem size_inputsCode (comments : Bool) {inputs : List Input} :
    ∀ (scope : Scope) (address : Nat),
      Code.size (inputsCode comments scope inputs) = codeSize (sitesFrom scope address inputs) := by
  induction inputs with
  | nil => intro scope address; rfl
  | cons input rest ih =>
    intro scope address
    rw [inputsCode, Code.size_append]
    cases input with
    | file name =>
      rw [Input.code, Code.size, List.countP_nil, Nat.zero_add]
      exact ih (scope.inFile name) address
    | statement s =>
      rw [Input.size_code]
      exact congrArg (Code.size (s.command.emitted scope) + ·) (ih (scope.after s.command) _)

theorem size_programCode (comments : Bool) (parts : List Part) :
    Code.size (programCode ⟨false, comments⟩ parts) =
      codeSize (sites ⟨false, comments⟩ parts) := by
  rw [programCode, Code.size_append, size_inputsCode comments {} (Code.size (prologue _))]
  exact Nat.zero_add _

/-! ### A run -/

/-- By how much commands change the height of the stack, one after the other. -/
def totalGrowth : List Command → Int
  | [] => 0
  | command :: rest => command.growth + totalGrowth rest

theorem totalGrowth_concat (commands : List Command) (command : Command) :
    totalGrowth (commands ++ [command]) = totalGrowth commands + command.growth := by
  induction commands with
  | nil => exact Int.add_comm _ _
  | cons first commands ih => rw [List.cons_append, totalGrowth, totalGrowth, ih, Int.add_assoc]

/-- Every command finds the values that it takes, and those are none that were there before. -/
def Covered (commands : List Command) : Prop :=
  ∀ front command back, commands = front ++ command :: back →
    (command.effect.pops : Int) ≤ totalGrowth front

theorem Covered.left {front back : List Command} (h : Covered (front ++ back)) : Covered front := by
  intro before command after hSplit
  exact h before command (after ++ back) (by rw [hSplit]; simp)

/-- A run of `n` steps has come through the code of the first commands. -/
structure Watch.Follows (rom : Array Op) (n : Nat) (cpu : Cpu) (front : List Site) : Prop where
  pc_eq : ((step rom)^[n] { cpu }).cpu.pc = codeSize front
  sp_eq : ((((step rom)^[n] { cpu }).cpu.memory.get sp).toNat : Int) =
    (cpu.memory.get sp).toNat + totalGrowth (front.map Site.command)
  touched_le : Covered (front.map Site.command) → ∀ slot ∈ ((step rom)^[n] { cpu }).touched,
    (cpu.memory.get sp).toNat ≤ slot.toNat

/-- A command more.  What it takes are values that were put there after the start, if the commands
are covered, so it touches no word below. -/
theorem Watch.Follows.concat {rom : Array Op} {n m : Nat} {cpu : Cpu} {front : List Site}
    {site : Site} {memory : Memory} {stored : List Word} (h : Follows rom n cpu front)
    (hPlain : site.command.isPlain = true)
    (hSees : Sees rom m ((step rom)^[n] { cpu })
      (((step rom)^[n] { cpu }).cpu.pc + site.size) memory
      (site.command.slots (((step rom)^[n] { cpu }).cpu.memory.get sp)) stored)
    (hSlots : ∀ slot ∈ site.command.slots (((step rom)^[n] { cpu }).cpu.memory.get sp),
      256 ≤ slot.toNat ∧ slot.toNat < ramSize)
    (hSp : memory.get sp = site.command.raised (((step rom)^[n] { cpu }).cpu.memory.get sp)) :
    Follows rom (m + n) cpu (front ++ [site]) := by
  obtain ⟨hRaised, hAbove⟩ := Command.raised_of_slots hPlain hSlots
  constructor
  · rw [Function.iterate_add_apply, hSees.pc_eq, h.pc_eq, codeSize_concat]
  · rw [Function.iterate_add_apply, hSees.memory_eq, hSp, hRaised, h.sp_eq, List.map_append,
      List.map_singleton, totalGrowth_concat, Int.add_assoc]
  · intro hCovered slot hSlot
    rw [List.map_append, List.map_singleton] at hCovered
    rw [Function.iterate_add_apply, hSees.touched_eq] at hSlot
    rcases List.mem_append.mp hSlot with hOld | hNew
    · exact h.touched_le hCovered.left slot hOld
    · have hTaken := hCovered _ _ [] rfl
      have hWord := hAbove slot hNew
      rw [h.sp_eq] at hWord
      omega

section Program

variable {comments : Bool} {parts : List Part} {image : Image} {cpu : Cpu}
  (hLoad : Image.load (programCode ⟨false, comments⟩ parts) = .ok image)
  (hCode : ∀ site ∈ sites ⟨false, comments⟩ parts,
    ∃ next, site.command.code site.scope = .ok (site.code, next))
  (hPlain : ∀ site ∈ sites ⟨false, comments⟩ parts, site.command.isPlain = true)
  (hPc : cpu.pc = 0)
  (hTouched : ∀ n, ∀ slot ∈ ((Watch.step image.rom)^[n] { cpu }).touched,
    256 ≤ slot.toNat ∧ slot.toNat < ramSize)
  (hStored : ∀ n, ∀ address ∈ ((Watch.step image.rom)^[n] { cpu }).stored,
    Memory.cell address ≠ Memory.cell sp)

include hLoad hCode hPlain hPc hTouched hStored

theorem Watch.follows {front : List Site} : ∀ {back : List Site},
    sites ⟨false, comments⟩ parts = front ++ back → ∃ n, Follows image.rom n cpu front := by
  induction front using List.reverseRecOn with
  | nil =>
    intro back _
    refine ⟨0, hPc, by simp [totalGrowth], fun _ slot hSlot => ?_⟩
    cases hSlot
  | append_singleton front site ih =>
    intro back hSites
    rw [List.append_assoc] at hSites
    obtain ⟨n, hFollows⟩ := ih hSites
    have hSite : site ∈ sites ⟨false, comments⟩ parts := by rw [hSites]; simp
    obtain ⟨next, hNext⟩ := hCode site hSite
    have hHere : ((step image.rom)^[n] { cpu }).cpu.pc = site.address := by
      rw [hFollows.pc_eq, address_of_sitesFrom_eq hSites]
      exact (Nat.zero_add _).symm
    have hAt := Code.at_site hSite
    rw [← hHere] at hAt
    obtain ⟨m, memory, hSees, hSp⟩ := Site.sees hLoad hNext (hPlain site hSite)
      (fun symbol hStatic => cell_static_ne hLoad hPlain hSite hStatic) hAt
    have hSlots : ∀ slot ∈ site.command.slots (((step image.rom)^[n] { cpu }).cpu.memory.get sp),
        256 ≤ slot.toNat ∧ slot.toNat < ramSize := by
      intro slot hSlot
      refine hTouched (m + n) slot ?_
      rw [Function.iterate_add_apply, hSees.touched_eq]
      exact List.mem_append_right _ hSlot
    have hPointers : ∀ address ∈ site.command.pointers ((step image.rom)^[n] { cpu }).cpu.memory,
        Memory.cell address ≠ Memory.cell sp := by
      intro address hAddress
      refine hStored (m + n) address ?_
      rw [Function.iterate_add_apply, hSees.stored_eq]
      exact List.mem_append_right _ hAddress
    have hApart : ∀ slot ∈ site.command.slots
        (((step image.rom)^[n] { cpu }).cpu.memory.get sp), Memory.cell slot ≠ Memory.cell sp :=
      fun slot hSlot => Memory.cell_ne_sp (Nat.lt_of_lt_of_le (by decide) (hSlots slot hSlot).1)
        (hSlots slot hSlot).2
    exact ⟨m + n, hFollows.concat (hPlain site hSite) hSees hSlots (hSp hApart hPointers)⟩

end Program

/-! ### The check -/

namespace StackCheck

theorem fst_follow (statements : List Statement) : ∀ (check : StackCheck)
    (found : Array StackProblem), (check.follow found statements).1 = check.behind statements := by
  induction statements with
  | nil => intro check found; rfl
  | cons s rest ih => intro check found; exact ih _ _

/-- A plain command of a program without problems finds what it takes, and raises the height by its
growth if that is a word. -/
theorem step_plain {before rest : List Statement} {s : Statement} {height : Word}
    (hPlain : s.command.isPlain = true) (hClean : stackProblems (before ++ s :: rest) = [])
    (hHeight : (behind {} before).height = some height) :
    s.command.effect.pops ≤ (height : Nat) ∧ (height + s.command.growth < 65536 →
      ∃ next : Word, (behind {} (before ++ [s])).height = some next ∧
        ((next : Nat) : Int) = height + s.command.growth) := by
  have hStep := step_eq_nil hClean
  obtain ⟨hFunction, hFalls⟩ :
      s.command.beginsFunction = false ∧ s.command.fallsThrough = true := by
    cases hCommand : s.command with
    | push segment index | pop segment index | unary op | binary op | compare op => exact ⟨rfl, rfl⟩
    | _ => rw [hCommand] at hPlain; cases hPlain
  have hHere := heightAt_of_height hFunction hHeight
  obtain ⟨hEnough, hNext, -⟩ := step_known hStep hHere
  refine ⟨hEnough, fun hWord => ⟨level s.command height, ?_, ?_⟩⟩
  · rw [behind_append]
    exact hNext hFalls
  · rw [Command.growth] at hWord ⊢
    have hFits : (behind {} before).sumFits s.command = true := by
      rw [sumFits_eq hFunction, hHeight, Option.all_some, decide_eq_true_iff, Word.toNat_minus,
        toNat_pops]
      omega
    rw [toNat_level hFunction hFits hHere]
    omega

/-- **The check adds up the effects** of plain commands if it finds no problem, and all sums are
words. -/
theorem height_behind {statements : List Statement} : ∀ {rest : List Statement},
    (∀ s ∈ statements, s.command.isPlain = true) → stackProblems (statements ++ rest) = [] →
      (∀ front back, statements = front ++ back →
        totalGrowth (front.map Statement.command) < 65536) →
      ∃ height : Word, (behind {} statements).height = some height ∧
        ((height : Nat) : Int) = totalGrowth (statements.map Statement.command) := by
  induction statements using List.reverseRecOn with
  | nil => intro rest _ _ _; exact ⟨0, rfl, rfl⟩
  | append_singleton statements s ih =>
    intro rest hPlain hClean hWords
    rw [List.append_assoc] at hClean
    have hBefore : ∀ front back, statements = front ++ back →
        totalGrowth (front.map Statement.command) < 65536 := by
      intro front back hSplit
      exact hWords front (back ++ [s]) (by rw [hSplit, List.append_assoc])
    obtain ⟨height, hHeight, hTotal⟩ :=
      ih (fun t ht => hPlain t (List.mem_append_left _ ht)) hClean hBefore
    have hWord := hWords (statements ++ [s]) [] (List.append_nil _).symm
    rw [List.map_append, List.map_singleton, totalGrowth_concat, ← hTotal] at hWord ⊢
    exact (step_plain (hPlain s (by simp)) hClean hHeight).2 hWord

/-- The check finds no problem only if the commands are covered. -/
theorem covered_of_clean {statements : List Statement}
    (hPlain : ∀ s ∈ statements, s.command.isPlain = true)
    (hClean : stackProblems statements = [])
    (hWords : ∀ front back, statements = front ++ back →
      totalGrowth (front.map Statement.command) < 65536) :
    Covered (statements.map Statement.command) := by
  intro front command back hSplit
  obtain ⟨before, rest, rfl, rfl, hRest⟩ := List.map_eq_append_iff.mp hSplit
  obtain ⟨s, after, rfl, rfl, -⟩ := List.map_eq_cons_iff.mp hRest
  obtain ⟨height, hHeight, hTotal⟩ :=
    height_behind (fun t ht => hPlain t (List.mem_append_left _ ht)) hClean
      fun first second hFirst => hWords first (second ++ s :: after) (by rw [hFirst]; simp)
  rw [← hTotal]
  exact Int.ofNat_le.mpr (step_plain (hPlain s (by simp)) hClean hHeight).1

end StackCheck

/-! ### The agreement -/

/-- The commands of a program without bootstrap are those of its files. -/
theorem commands_sites (comments : Bool) (parts : List Part) :
    (sites ⟨false, comments⟩ parts).map Site.command =
      (parts.flatMap Part.statements).map Statement.command := by
  have hFiles := congrArg (List.map Prod.snd) (files_sites ⟨false, comments⟩ parts)
  simpa [List.map_flatMap, Function.comp_def] using hFiles

theorem exists_statement_of_site {comments : Bool} {parts : List Part} {site : Site}
    (hSite : site ∈ sites ⟨false, comments⟩ parts) :
    ∃ s ∈ parts.flatMap Part.statements, s.command = site.command := by
  have hMem : site.command ∈ (sites ⟨false, comments⟩ parts).map Site.command :=
    List.mem_map_of_mem hSite
  rw [commands_sites] at hMem
  exact List.mem_map.mp hMem

/-- **Effects, check and code agree on the height of the stack.**  A program of plain commands runs
from its first instruction, with any memory, such that the words it touches as the stack lie above
the registers and it stores nothing into the word of `SP` through a pointer.  Then behind the code
of its first commands `SP` is raised by the sum of their effects.  If the check finds no problem,
that sum is the height that the check has there, and no word below the first one is touched. -/
theorem stack_height_followed {comments : Bool} {sources : List Source} {parts : List Part}
    {code : Code} {machine here : Machine} (hRead : readSources sources = .ok parts)
    (hTranslate : translate ⟨false, comments⟩ sources = .ok code)
    (hLoad : Machine.load code = .ok machine)
    (hPlain : ∀ part ∈ parts, ∀ s ∈ part.statements, s.command.isPlain = true)
    (hImage : here.image = machine.image) (hPc : here.cpu.pc = 0)
    (hTouched : ∀ n, ∀ slot ∈ (here.watch n).touched, 256 ≤ slot.toNat ∧ slot.toNat < ramSize)
    (hStored : ∀ n, ∀ address ∈ (here.watch n).stored, Memory.cell address ≠ Memory.cell sp) :
    (∀ front back, parts.flatMap Part.statements = front ++ back → ∃ n,
      (Machine.step^[n] here).cpu.pc =
        codeSize ((sites ⟨false, comments⟩ parts).take front.length) ∧
      (((Machine.step^[n] here).cpu.memory.get sp).toNat : Int) =
        (here.cpu.memory.get sp).toNat + totalGrowth (front.map Statement.command) ∧
      (stackProblems (parts.flatMap Part.statements) = [] → ∃ height : Word,
        (StackCheck.follow {} #[] front).1.height = some height ∧
        ((Machine.step^[n] here).cpu.memory.get sp).toNat =
          (here.cpu.memory.get sp).toNat + height.toNat)) ∧
    (stackProblems (parts.flatMap Part.statements) = [] →
      ∀ n, ∀ slot ∈ (here.watch n).touched, (here.cpu.memory.get sp).toNat ≤ slot.toNat) := by
  have hOk := inputsOk_of_translate hRead hTranslate
  obtain rfl := translate_eq_ok hRead hTranslate
  obtain ⟨hProgram, -⟩ := Machine.load_eq_ok hLoad
  have hStatements : ∀ s ∈ parts.flatMap Part.statements, s.command.isPlain = true := by
    intro s hs
    obtain ⟨part, hPart, hs⟩ := List.mem_flatMap.mp hs
    exact hPlain part hPart s hs
  have hCommands := commands_sites comments parts
  have hSites : ∀ site ∈ sites ⟨false, comments⟩ parts, site.command.isPlain = true := by
    intro site hSite
    obtain ⟨s, hs, hCommand⟩ := exists_statement_of_site hSite
    rw [← hCommand]
    exact hStatements s hs
  rw [← hImage] at hProgram
  have hFollows : ∀ {front back : List Site}, sites ⟨false, comments⟩ parts = front ++ back →
      ∃ n, Watch.Follows here.image.rom n here.cpu front :=
    Watch.follows hProgram (fun site hSite => code_eq_ok_of_mem_sitesFrom hOk hSite) hSites hPc
      hTouched hStored
  have hSp : ∀ {front back : List Statement}, parts.flatMap Part.statements = front ++ back →
      ∃ n, (here.watch n).cpu.pc =
          codeSize ((sites ⟨false, comments⟩ parts).take front.length) ∧
        (((here.watch n).cpu.memory.get sp).toNat : Int) =
          (here.cpu.memory.get sp).toNat + totalGrowth (front.map Statement.command) := by
    intro front back hSplit
    have hFront : ((sites ⟨false, comments⟩ parts).take front.length).map Site.command =
        front.map Statement.command := by
      rw [List.map_take, hCommands, hSplit, List.map_append, List.take_left' (List.length_map _)]
    obtain ⟨n, hFollows⟩ := hFollows (List.take_append_drop front.length _).symm
    rw [← hFront]
    exact ⟨n, hFollows.pc_eq, hFollows.sp_eq⟩
  -- `SP` is a word behind each of the commands, so the sums of the check are.
  have hWords : ∀ front back, parts.flatMap Part.statements = front ++ back →
      totalGrowth (front.map Statement.command) < 65536 := by
    intro front back hSplit
    obtain ⟨n, -, hRaised⟩ := hSp hSplit
    have := ((here.watch n).cpu.memory.get sp).toNat_lt
    omega
  constructor
  · intro front back hSplit
    obtain ⟨n, hAddress, hRaised⟩ := hSp hSplit
    rw [Machine.cpu_watch] at hAddress hRaised
    refine ⟨n, hAddress, hRaised, fun hClean => ?_⟩
    rw [hSplit] at hClean hStatements hWords
    obtain ⟨height, hHeight, hTotal⟩ := StackCheck.height_behind
      (fun s hs => hStatements s (List.mem_append_left _ hs)) hClean
      fun first second hFirst => hWords first (second ++ back) (by rw [hFirst, List.append_assoc])
    refine ⟨height, by rw [StackCheck.fst_follow, hHeight], ?_⟩
    rw [← hTotal] at hRaised
    exact Int.ofNat.inj hRaised
  · intro hClean n slot hSlot
    obtain ⟨last, hLast⟩ := hFollows (List.append_nil _).symm
    have hEnd : here.image.rom.size ≤ (here.watch last).cpu.pc := by
      rw [Image.size_rom hProgram, size_programCode]
      exact Nat.le_of_eq hLast.pc_eq.symm
    have hCovered := StackCheck.covered_of_clean hStatements hClean hWords
    rw [← hCommands] at hCovered
    exact hLast.touched_le hCovered slot ((Watch.seen_of_finished hEnd n).1.subset hSlot)

/-- Behind a push that is popped again into a segment, `SP` is raised by one. -/
theorem push_before_pop_followed :
    ∃ code machine here n, translate ⟨false, false⟩
        [.ofText "Main" "push constant 7\npop local 0"] = .ok code ∧
      Machine.load code = .ok machine ∧ here.image = machine.image ∧
      here.cpu.memory.get sp = 256 ∧ (Machine.step^[n] here).cpu.pc = 6 ∧
      ((Machine.step^[n] here).cpu.memory.get sp).toNat = 257 := by
  let first : Statement := ⟨⟨"Main.vm", 1⟩, .push .constant 7⟩
  let second : Statement := ⟨⟨"Main.vm", 2⟩, .pop .locals 0⟩
  let parts : List Part := [⟨"Main", [first, second]⟩]
  let scope : Scope := Scope.inFile {} "Main"
  have hRead : readSources [.ofText "Main" "push constant 7\npop local 0"] = .ok parts := rfl
  have hNodup : (Code.labels (programCode ⟨false, false⟩ parts)).Nodup := by decide
  have hTranslate := translate_isOk hRead (by decide) hNodup
  obtain ⟨image, hImage⟩ := Image.load_isOk hNodup (by decide) (by decide) (by decide)
  have hFixed := Image.fixedAddresses hImage
  let memory := (Memory.zeros.set sp 256).set lcl 300
  have hSp : memory.get sp = 256 := by
    rw [Memory.get_set_of_ne (by decide), Memory.get_set_self]
  let here : Machine := ⟨image, { memory }⟩
  have hPush : pushCode scope .constant 7 = .ok (first.command.emitted scope) := rfl
  have hPop : popCode scope .locals 0 = .ok (second.command.emitted scope) := rfl
  have hSplit : programCode ⟨false, false⟩ parts =
      first.command.emitted scope ++ second.command.emitted scope := rfl
  -- what is seen of the two commands
  obtain ⟨hPushTouched, hPushStored⟩ := watch_pushCode { cpu := here.cpu } hFixed hPush
  obtain ⟨hPopTouched, hPopStored⟩ :=
    watch_popCode (Code.watch image.address (first.command.emitted scope) { cpu := here.cpu })
      hFixed hPop
  have hPushed := (run_pushCode hFixed here.cpu hPush).2
  have hTouched :
      (Code.watch image.address (programCode ⟨false, false⟩ parts) { cpu := here.cpu }).touched =
        [256, 256] := by
    rw [hSplit, Code.watch_append, hPopTouched, hPushTouched, Code.cpu_watch, hPushed,
      Memory.get_sp_pushUnder (by rw [hSp]; decide), hSp]
    rfl
  have hStored :
      (Code.watch image.address (programCode ⟨false, false⟩ parts) { cpu := here.cpu }).stored =
        [300] := by
    have hLocal : (here.cpu.memory.pushUnder 7).get lcl = 300 := by
      rw [Memory.pushUnder, Memory.get_set_of_ne (by rw [hSp]; decide),
        Memory.get_set_of_ne (by decide), Memory.get_set_self]
    rw [hSplit, Code.watch_append, hPopStored, hPushStored, Code.cpu_watch, hPushed]
    exact congrArg (fun base => [base + 0]) hLocal
  have hSlots : ∀ n, ∀ slot ∈ (here.watch n).touched, 256 ≤ slot.toNat ∧ slot.toNat < ramSize := by
    intro n slot hSlot
    have hMem := (@Watch.seen_of_straight _ _ hImage { cpu := here.cpu } rfl rfl n).1.subset hSlot
    rw [hTouched, List.mem_pair, or_self] at hMem
    rw [hMem]
    decide
  have hPointers : ∀ n, ∀ address ∈ (here.watch n).stored,
      Memory.cell address ≠ Memory.cell sp := by
    intro n address hAddress
    have hMem := (@Watch.seen_of_straight _ _ hImage { cpu := here.cpu } rfl rfl n).2.subset hAddress
    rw [hStored, List.mem_singleton] at hMem
    rw [hMem]
    decide
  obtain ⟨hFollowed, -⟩ := stack_height_followed hRead hTranslate (Machine.load_of_image hImage)
    (by decide) (show here.image = _ from rfl) rfl hSlots hPointers
  obtain ⟨n, hPc, hHeight, -⟩ := hFollowed [first] [second] rfl
  have hGrowth : totalGrowth ([first].map Statement.command) = 1 := rfl
  have hStart : here.cpu.memory.get sp = 256 := hSp
  rw [hStart, hGrowth] at hHeight
  exact ⟨_, _, here, n, hTranslate, Machine.load_of_image hImage, rfl, hStart, hPc,
    Int.ofNat.inj hHeight⟩

end HackVm
