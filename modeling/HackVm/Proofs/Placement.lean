import HackVm.Proofs.CommandRun
import HackVm.Proofs.SiteCode

/-!
# Where code lies in a loaded program

Program memory holds the code of the commands one after the other, and every symbol in it is
replaced by an address.  The addresses that jumps go to are those that the commands have in program
memory, counted when the program is translated (`Site.address`).

* `Image.holdsAt_of_at`: the loaded instructions stand where the code stands in the program.
* `Placed`: what is to be said of the commands of a program and the machine that has it loaded.
* `commands_placed`: it holds of every program that is accepted and loads.
-/

namespace HackVm

open Instruction

/-- Program memory holds instructions from an address on. -/
def Image.HoldsAt (image : Image) (pc : Nat) (ops : List Op) : Prop :=
  ops <+: image.rom.toList.drop pc

/-- The instructions of a command as they are loaded. -/
def Site.ops (image : Image) (site : Site) : List Op :=
  Code.ops image.address site.code

/-- The commands of a program lie in the memory of a machine one after the other, and what they
load is where the others lie. -/
structure Placed (options : Options) (parts : List Part) (machine : Machine) : Prop where
  /-- The commands are those of the files, behind the call of the entry point if there is one. -/
  commands : (sites options parts).map (fun site => (site.scope.file, site.command)) =
    (if options.bootstrap then [("", .call entryPoint 0)] else []) ++
      parts.flatMap fun part => part.statements.map fun s => (part.name, s.command)
  translated : ∀ site ∈ sites options parts,
    ∃ next, site.command.code site.scope = .ok (site.code, next)
  rom : machine.image.rom.toList = Code.ops machine.image.address (prologue options) ++
    (sites options parts).flatMap (Site.ops machine.image)
  resolved : ∀ name ∈ Code.symbols (programCode options parts),
    machine.symbol? name = some (machine.image.address name)
  /-- The address of a command cuts program memory in front of its code. -/
  cut : ∀ front site back, sites options parts = front ++ site :: back →
    machine.image.rom.toList.take site.address =
      Code.ops machine.image.address (prologue options) ++
        front.flatMap (Site.ops machine.image) ∧
    machine.image.rom.toList.drop site.address =
      site.ops machine.image ++ back.flatMap (Site.ops machine.image)
  next_le : ∀ site ∈ sites options parts, site.next ≤ machine.image.rom.size
  size_le : machine.image.rom.size ≤ romSize
  function : ∀ site ∈ sites options parts, ∀ name locals,
    site.command = .function name locals →
      machine.symbol? name = some (UInt16.ofNat site.address)
  /-- At the address of a label stands the first instruction of the commands behind it, or the end
  of the program. -/
  label : ∀ front site back, sites options parts = front ++ site :: back → ∀ name,
    site.command = .label name →
      machine.symbol? (site.scope.labelSymbol name) = some (UInt16.ofNat site.address) ∧
      machine.image.rom.toList.drop site.address = back.flatMap (Site.ops machine.image)
  goto : ∀ site ∈ sites options parts, ∀ other ∈ sites options parts, ∀ name,
    site.command = .goto name → other.command = .label name →
      site.scope.function = other.scope.function →
        machine.image.HoldsAt site.address
          [.load (UInt16.ofNat other.address), .compute none .zero (some .JMP)]
  ifGoto : ∀ site ∈ sites options parts, ∀ other ∈ sites options parts, ∀ name,
    site.command = .ifGoto name → other.command = .label name →
      site.scope.function = other.scope.function →
        machine.image.HoldsAt site.address (Code.ops machine.image.address popD ++
          [.load (UInt16.ofNat other.address), .compute none .d (some .JNE)])
  /-- A call begins with a push of the address behind it, and ends with its jump. -/
  call : ∀ site ∈ sites options parts, ∀ name arguments,
    site.command = .call name arguments →
      machine.image.HoldsAt site.address
        (.load (UInt16.ofNat site.next) :: .compute (some .D) (.val .A) none ::
          Code.ops machine.image.address pushD) ∧
      ∃ pc, site.next = pc + 2 ∧ machine.image.HoldsAt pc
        [.load (machine.image.address name), .compute none .zero (some .JMP)]
  /-- The two jumps of a comparison go to the `-1` and to the point where the result is stored. -/
  compare : ∀ site ∈ sites options parts, ∀ op, site.command = .compare op →
    ∃ holds meet, holds = site.address + 10 ∧ meet = site.address + 11 ∧ site.next = meet + 3 ∧
      machine.image.HoldsAt (site.address + 5)
        [.load (UInt16.ofNat holds), .compute none .d (some op.jump),
          .compute (some .D) .zero none, .load (UInt16.ofNat meet),
          .compute none .zero (some .JMP)] ∧
      machine.image.HoldsAt holds [.compute (some .D) .minusOne none] ∧
      machine.image.HoldsAt meet [.load (machine.image.address "SP"),
        .compute (some .A) (.pred .M) none, .compute (some .M) .d none]

/-! ### Code in program memory -/

/-- **What code stands for is in program memory where the code stands in the program.** -/
theorem Image.holdsAt_of_at {program : Code} {image : Image} (h : Image.load program = .ok image)
    {pc : Nat} {code : Code} (hAt : Code.At program pc code) :
    image.HoldsAt pc (Code.ops image.address code) := by
  obtain ⟨before, behind, hProgram, rfl⟩ := hAt
  rw [HoldsAt, rom_of_load h, hProgram, List.append_assoc, Code.ops_append,
    ← Code.length_ops image.address before, List.drop_left, Code.ops_append]
  exact List.prefix_append _ _

section Loaded

variable {options : Options} {parts : List Part} {image : Image}
  (h : Image.load (programCode options parts) = .ok image)

include h

theorem Image.rom_eq : image.rom.toList =
    Code.ops image.address (prologue options) ++
      (sites options parts).flatMap (Site.ops image) := by
  rw [Image.rom_of_load h, ops_programCode]
  rfl

theorem Image.rom_cut {front back : List Site} {site : Site}
    (hSites : sites options parts = front ++ site :: back) :
    image.rom.toList.take site.address =
      Code.ops image.address (prologue options) ++ front.flatMap (Site.ops image) ∧
    image.rom.toList.drop site.address = site.ops image ++ back.flatMap (Site.ops image) := by
  obtain ⟨before, behind, -, hAddress, hBefore⟩ := programCode_eq_of_sites_eq hSites
  have hFront : Code.ops image.address before =
      Code.ops image.address (prologue options) ++ front.flatMap (Site.ops image) :=
    hBefore fun _ => rfl
  have hLength : (Code.ops image.address (prologue options) ++
      front.flatMap (Site.ops image)).length = site.address := by
    rw [← hFront, Code.length_ops, hAddress]
  have hRom := Image.rom_eq h
  rw [hSites, List.flatMap_append, List.flatMap_cons, ← List.append_assoc] at hRom
  rw [hRom, ← hLength]
  exact ⟨List.take_left, List.drop_left⟩

section Commands

variable {site : Site} (hSite : site ∈ sites options parts)

include hSite

theorem Site.next_le_size_rom : site.next ≤ image.rom.size := by
  obtain ⟨before, behind, hCode, hAddress⟩ := Code.at_site hSite
  have hNext : site.next = Code.size (before ++ site.code) := by
    rw [Code.size_append, ← hAddress]
    rfl
  rw [Image.size_rom h, hCode, Code.size_append, hNext]
  exact Nat.le_add_right _ _

theorem Site.holdsAt {before code behind : Code} (hCode : site.code = before ++ code ++ behind) :
    image.HoldsAt (site.address + Code.size before) (Code.ops image.address code) := by
  have hAt := Code.at_site hSite
  rw [hCode] at hAt
  exact Image.holdsAt_of_at h hAt.left.right

/-- A symbol that a command loads is loaded as its address by an instruction of the command. -/
theorem Site.getElem?_symbol {name : String} (hName : name ∈ Code.symbols site.code) :
    ∃ pc, site.address ≤ pc ∧ pc < site.next ∧
      image.rom[pc]? = some (.load (image.address name)) := by
  obtain ⟨before, behind, hCode⟩ := Code.exists_symbol hName
  have hAt := Code.at_site hSite
  have hNext : site.next = site.address + Code.size (before ++ .load (.symbol name) :: behind) := by
    rw [← hCode]
    rfl
  rw [hCode] at hAt
  refine ⟨site.address + Code.size before, Nat.le_add_right _ _, ?_, ?_⟩
  · rw [hNext, Code.size_append, Code.size_cons_of_executable rfl]
    omega
  · rw [← Array.getElem?_toList, Image.rom_of_load h]
    exact hAt.right.getElem?_ops rfl

/-- A label in the code of a command has the address of what is behind it. -/
theorem Site.getElem?_label {before behind : Code} {name : String}
    (hCode : site.code = before ++ .label name :: behind) :
    image.symbols[name]? = some (UInt16.ofNat (site.address + Code.size before)) := by
  have hAt := Code.at_site hSite
  rw [hCode] at hAt
  exact Image.getElem?_label h hAt.right

theorem Site.getElem?_declared {symbol : String} (hSymbol : site.declared? = some symbol) :
    image.symbols[symbol]? = some (UInt16.ofNat site.address) := by
  obtain ⟨rest, hCode⟩ := Site.code_of_declared hSymbol
  exact Site.getElem?_label h hSite (show site.code = [] ++ _ from hCode)

/-! ### Jumps -/

omit hSite in
theorem Site.address_target {other : Site} (hOther : other ∈ sites options parts) {name : String}
    (hLabel : other.command = .label name)
    (hFunction : site.scope.function = other.scope.function) :
    image.address (site.scope.labelSymbol name) = UInt16.ofNat other.address := by
  have hSymbol : site.scope.labelSymbol name = other.scope.labelSymbol name := by
    simp only [Scope.labelSymbol, hFunction]
  rw [hSymbol]
  exact Image.address_of_getElem?
    (Site.getElem?_declared h hOther (Site.declared?_of_label hLabel))

theorem Site.holdsAt_goto {other : Site} (hOther : other ∈ sites options parts) {name : String}
    (hGoto : site.command = .goto name) (hLabel : other.command = .label name)
    (hFunction : site.scope.function = other.scope.function) :
    image.HoldsAt site.address
      [.load (UInt16.ofNat other.address), .compute none .zero (some .JMP)] := by
  have hCode : site.code = [] ++ gotoCode (site.scope.labelSymbol name) ++ [] := by
    rw [Site.code, hGoto]
    rfl
  rw [← Site.address_target h hOther hLabel hFunction]
  exact Site.holdsAt h hSite hCode

theorem Site.holdsAt_ifGoto {other : Site} (hOther : other ∈ sites options parts) {name : String}
    (hGoto : site.command = .ifGoto name) (hLabel : other.command = .label name)
    (hFunction : site.scope.function = other.scope.function) :
    image.HoldsAt site.address (Code.ops image.address popD ++
      [.load (UInt16.ofNat other.address), .compute none .d (some .JNE)]) := by
  have hCode : site.code = [] ++ ifGotoCode (site.scope.labelSymbol name) ++ [] := by
    rw [Site.code, hGoto]
    rfl
  rw [← Site.address_target h hOther hLabel hFunction]
  exact Site.holdsAt h hSite hCode

/-! ### Calls and comparisons -/

theorem Site.holdsAt_call {name : String} {arguments : Word}
    (hCall : site.command = .call name arguments) :
    image.HoldsAt site.address
      (.load (UInt16.ofNat site.next) :: .compute (some .D) (.val .A) none ::
        Code.ops image.address pushD) ∧
    ∃ pc, site.next = pc + 2 ∧ image.HoldsAt pc
      [.load (image.address name), .compute none .zero (some .JMP)] := by
  -- the label behind the jump is the last instruction, so its address is that of the next command
  let back := site.scope.returnSymbol
  have hCode : site.code = callSetup arguments back ++ [symbol name, branch .zero .JMP] ++
      [label back] := by
    rw [Site.code, hCall, List.append_assoc]
    exact callCode_eq name arguments back
  have hPush : site.code = [] ++ ([symbol back, set .D (.val .A)] ++ pushD) ++
      site.code.drop 6 := by
    rw [hCode]
    rfl
  have hNext : site.next = site.address + Code.size (callSetup arguments back) + 2 := by
    rw [Site.next, Site.size, hCode, Code.size_append, Code.size_append, Nat.add_assoc]
    rfl
  have hBack : image.address back = UInt16.ofNat site.next := by
    rw [Image.address_of_getElem? (Site.getElem?_label h hSite hCode), hNext, Code.size_append,
      Nat.add_assoc]
    rfl
  refine ⟨?_, _, hNext, Site.holdsAt h hSite hCode⟩
  rw [← hBack]
  exact Site.holdsAt h hSite hPush

theorem Site.holdsAt_compare {op : Comparison} (hCompare : site.command = .compare op) :
    ∃ holds meet, holds = site.address + 10 ∧ meet = site.address + 11 ∧ site.next = meet + 3 ∧
      image.HoldsAt (site.address + 5)
        [.load (UInt16.ofNat holds), .compute none .d (some op.jump),
          .compute (some .D) .zero none, .load (UInt16.ofNat meet),
          .compute none .zero (some .JMP)] ∧
      image.HoldsAt holds [.compute (some .D) .minusOne none] ∧
      image.HoldsAt meet [.load (image.address "SP"),
        .compute (some .A) (.pred .M) none, .compute (some .M) .d none] := by
  let holds := site.scope.trueSymbol
  let meet := site.scope.endSymbol
  let start : Code := popD ++ [set .A (.pred .A), set .D (.rsub .M)]
  let jumps : Code := [symbol holds, branch .d op.jump, set .D .zero, symbol meet,
    branch .zero .JMP]
  have hCode : site.code = start ++ jumps ++
      ([label holds, set .D .minusOne] ++ Cpu.compareTail meet) := by
    rw [Site.code, hCompare]
    rfl
  have hBranch : site.code = (start ++ jumps) ++ [label holds, set .D .minusOne] ++
      Cpu.compareTail meet := by
    rw [hCode, List.append_assoc (start ++ jumps)]
  have hTail : site.code = (start ++ jumps ++ [label holds, set .D .minusOne]) ++
      Cpu.compareTail meet ++ [] := by
    rw [List.append_nil, hBranch]
  have hHolds : image.address holds = UInt16.ofNat (site.address + 10) :=
    Image.address_of_getElem? (Site.getElem?_label h hSite hCode)
  have hMeet : image.address meet = UInt16.ofNat (site.address + 11) :=
    Image.address_of_getElem? (Site.getElem?_label h hSite hBranch)
  refine ⟨_, _, rfl, rfl, ?_, ?_, Site.holdsAt h hSite hBranch, Site.holdsAt h hSite hTail⟩
  · rw [Site.next, Site.size, hCode]
    rfl
  · rw [← hHolds, ← hMeet]
    exact Site.holdsAt h hSite hCode

end Commands

end Loaded

/-- **Code is placed command by command and linked.**  In every program that is accepted and loads,
the commands lie one after the other in program memory, every symbol is replaced by its address, and
jumps, calls and comparisons load the addresses of the commands and the instructions they mean. -/
theorem commands_placed {options : Options} {sources : List Source} {parts : List Part}
    {code : Code} {machine : Machine} (hRead : readSources sources = .ok parts)
    (hTranslate : translate options sources = .ok code) (hLoad : Machine.load code = .ok machine) :
    Placed options parts machine := by
  have hOk := inputsOk_of_translate hRead hTranslate
  obtain rfl := translate_eq_ok hRead hTranslate
  obtain ⟨hImage, -⟩ := Machine.load_eq_ok hLoad
  exact {
    commands := files_sites options parts
    translated := fun site hSite => code_eq_ok_of_mem_sitesFrom hOk hSite
    rom := Image.rom_eq hImage
    resolved := fun name hName => Image.getElem?_symbol hImage hName
    cut := fun front site back hSites => Image.rom_cut hImage hSites
    next_le := fun site hSite => Site.next_le_size_rom hImage hSite
    size_le := by
      rw [Image.size_rom hImage]
      exact Image.size_of_load hImage
    function := fun site hSite name locals hFunction =>
      Site.getElem?_declared hImage hSite (Site.declared?_of_function hFunction)
    label := fun front site back hSites name hLabel => by
      have hSite : site ∈ sites options parts := by
        rw [hSites]
        simp
      have hOps : site.ops machine.image = [] := by
        rw [Site.ops, Site.code, hLabel]
        rfl
      refine ⟨Site.getElem?_declared hImage hSite (Site.declared?_of_label hLabel), ?_⟩
      rw [(Image.rom_cut hImage hSites).2, hOps, List.nil_append]
    goto := fun site hSite other hOther name => Site.holdsAt_goto hImage hSite hOther
    ifGoto := fun site hSite other hOther name => Site.holdsAt_ifGoto hImage hSite hOther
    call := fun site hSite name arguments => Site.holdsAt_call hImage hSite
    compare := fun site hSite op => Site.holdsAt_compare hImage hSite }

/-- A comparison in an endless loop. -/
theorem endless_loop_placed :
    ∃ code machine,
      translate {} [.ofText "Sys" "function Sys.init 0\nlabel LOOP\neq\ngoto LOOP"] = .ok code ∧
      Machine.load code = .ok machine ∧ machine.symbol? "Sys.init" = some 48 ∧
      machine.image.HoldsAt 62 [.load 48, .compute none .zero (some .JMP)] ∧
      machine.image.HoldsAt 58 [.compute (some .D) .minusOne none] := by
  let parts : List Part := [⟨"Sys", [⟨⟨"Sys.vm", 1⟩, .function "Sys.init" 0⟩,
    ⟨⟨"Sys.vm", 2⟩, .label "LOOP"⟩, ⟨⟨"Sys.vm", 3⟩, .compare .eq⟩,
    ⟨⟨"Sys.vm", 4⟩, .goto "LOOP"⟩]⟩]
  have hRead : readSources
      [.ofText "Sys" "function Sys.init 0\nlabel LOOP\neq\ngoto LOOP"] = .ok parts := rfl
  have hNodup : (Code.labels (programCode {} parts)).Nodup := by decide
  have hTranslate := translate_isOk hRead (by decide) hNodup
  obtain ⟨image, hImage⟩ := Image.load_isOk hNodup (by decide) (by decide +kernel) (by decide)
  have hPlaced := commands_placed hRead hTranslate (Machine.load_of_image hImage)
  let entry : Site := ⟨⟨"Sys", "Sys.init", 0, 1⟩, .function "Sys.init" 0, 48⟩
  let loop : Site := ⟨⟨"Sys", "Sys.init", 0, 1⟩, .label "LOOP", 48⟩
  let equal : Site := ⟨⟨"Sys", "Sys.init", 0, 1⟩, .compare .eq, 48⟩
  let jump : Site := ⟨⟨"Sys", "Sys.init", 1, 1⟩, .goto "LOOP", 62⟩
  have hEntry : entry ∈ sites {} parts := by decide
  have hLoop : loop ∈ sites {} parts := by decide
  have hEqual : equal ∈ sites {} parts := by decide
  have hJump : jump ∈ sites {} parts := by decide
  obtain ⟨_, _, rfl, -, -, -, hHolds, -⟩ := hPlaced.compare equal hEqual .eq rfl
  exact ⟨_, _, hTranslate, Machine.load_of_image hImage,
    hPlaced.function entry hEntry _ _ rfl,
    hPlaced.goto jump hJump loop hLoop _ rfl rfl rfl, hHolds⟩

end HackVm
