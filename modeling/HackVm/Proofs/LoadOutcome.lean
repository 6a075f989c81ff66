import Mathlib.Data.List.Induction
import HackVm.Proofs.Refusal

/-!
# What comes of loading a program

The loader goes through a program twice.  The first pass stops at the first instruction that
offends: a label that is fixed or was declared before, or an instruction for which there is no room.
The second pass stops at the first variable for which there is no memory, and by then all labels are
known, whether they stand before or behind their uses.  This says exactly what loading gives for
every program, also for those that no translation makes.

* `placeLabels_outcome`: the first pass fails with the fault of the first instruction that offends.
* `resolve_eq_noMemory`: the second pass fails at the first variable behind those that fit.
* `Machine.Loaded`: what is in the machine if both passes succeed.
* `load_exact`: when a program loads, what is loaded, and what is wrong otherwise.
-/

namespace HackVm

/-! ### Instructions that offend -/

/-- What is wrong with an instruction, given the code before it. -/
inductive Offends (before : Code) : Instruction → LoadFault → Prop
  /-- A label is a fixed symbol, or the code before it declares the same label. -/
  | taken {label : String} : label ∈ Image.fixedNames ∨ label ∈ Code.labels before →
      Offends before (.label label) (.labelTaken label)
  /-- The code before the instruction fills program memory. -/
  | full {i : Instruction} : i.isExecutable = true → romSize ≤ Code.size before →
      Offends before i .romFull

/-- No instruction of the code offends. -/
def Code.Sound (code : Code) : Prop :=
  ∀ before i behind fault, code = before ++ i :: behind → ¬ Offends before i fault

/-- The fault of the first instruction that offends. -/
def Code.FirstOffence (code : Code) (fault : LoadFault) : Prop :=
  ∃ before i behind, code = before ++ i :: behind ∧ Code.Sound before ∧ Offends before i fault

theorem Offends.fault_unique {before : Code} {i : Instruction} {fault other : LoadFault}
    (h : Offends before i fault) (hOther : Offends before i other) : fault = other := by
  cases h with
  | taken =>
    cases hOther with
    | taken => rfl
    | full hTakes => cases hTakes
  | full hTakes =>
    cases hOther with
    | taken => cases hTakes
    | full => rfl

namespace Code

theorem sound_nil : Sound [] := by
  intro before i behind fault h
  simp at h

/-- The code is sound if what is before its last instruction is, and that does not offend. -/
theorem Sound.concat {code : Code} {i : Instruction} (h : Sound code)
    (hLast : ∀ fault, ¬ Offends code i fault) : Sound (code ++ [i]) := by
  intro before j behind fault hSplit
  rcases List.eq_nil_or_concat behind with rfl | ⟨behind, k, rfl⟩
  · obtain ⟨rfl, hEq⟩ := List.append_inj' hSplit rfl
    cases hEq
    exact hLast fault
  · have hFront : code ++ [i] = (before ++ j :: behind) ++ [k] := by simpa using hSplit
    obtain ⟨rfl, -⟩ := List.append_inj' hFront rfl
    exact h before j behind fault rfl

theorem FirstOffence.append {code : Code} {fault : LoadFault} (h : FirstOffence code fault)
    (rest : Code) : FirstOffence (code ++ rest) fault := by
  obtain ⟨before, i, behind, rfl, hSound, hOffends⟩ := h
  exact ⟨before, i, behind ++ rest, by simp, hSound, hOffends⟩

theorem FirstOffence.not_sound {code : Code} {fault : LoadFault} (h : FirstOffence code fault) :
    ¬ Sound code := by
  obtain ⟨before, i, behind, rfl, -, hOffends⟩ := h
  intro hSound
  exact hSound before i behind fault rfl hOffends

theorem FirstOffence.unique {code : Code} {fault other : LoadFault} (h : FirstOffence code fault)
    (hOther : FirstOffence code other) : fault = other := by
  obtain ⟨before, i, behind, rfl, hSound, hOffends⟩ := h
  obtain ⟨before', j, behind', hSplit, hSound', hOffends'⟩ := hOther
  rcases List.append_eq_append_iff.mp hSplit with ⟨m, rfl, hBack⟩ | ⟨m, rfl, hBack⟩
  · cases m with
    | nil =>
      obtain ⟨rfl, -⟩ := List.cons.inj hBack
      rw [List.append_nil] at hOffends'
      exact hOffends.fault_unique hOffends'
    | cons k m =>
      obtain ⟨rfl, -⟩ := List.cons.inj hBack
      exact absurd hOffends (hSound' before _ m fault rfl)
  · cases m with
    | nil =>
      obtain ⟨rfl, -⟩ := List.cons.inj hBack
      rw [List.append_nil] at hOffends
      exact hOffends.fault_unique hOffends'
    | cons k m =>
      obtain ⟨rfl, -⟩ := List.cons.inj hBack
      exact absurd hOffends' (hSound before' _ m other rfl)

end Code

/-! ### The first pass -/

section Labels

variable {code : Code} {table : SymbolTable}

/-- If the first pass goes through code, it stops at the next instruction exactly if that
offends. -/
theorem placeLabels_last (h : placeLabels (Std.HashMap.ofList fixedSymbols) 0 code = .ok table)
    (i : Instruction) :
    ((∃ final, placeLabels (Std.HashMap.ofList fixedSymbols) 0 (code ++ [i]) = .ok final) ∧
        ∀ fault, ¬ Offends code i fault) ∨
      ∃ fault, placeLabels (Std.HashMap.ofList fixedSymbols) 0 (code ++ [i]) = .error fault ∧
        Offends code i fault := by
  have hLast : placeLabels (Std.HashMap.ofList fixedSymbols) 0 (code ++ [i]) =
      placeLabels table (Code.size code) [i] := by
    rw [placeLabels_append, h, Nat.zero_add]
    rfl
  have hTaken : ∀ name,
      table.contains name = true ↔ name ∈ Image.fixedNames ∨ name ∈ Code.labels code := by
    intro name
    rw [Image.contains_placed h, decide_eq_true_iff]
  have hFull : i.isExecutable = true → ¬ Code.size code < romSize → Offends code i .romFull :=
    fun hTakes hRoom => .full hTakes (Nat.not_lt.mp hRoom)
  rw [hLast]
  cases i with
  | label name =>
    rw [placeLabels]
    split
    case isTrue hName => exact Or.inr ⟨_, rfl, .taken ((hTaken name).mp hName)⟩
    case isFalse hName =>
      refine Or.inl ⟨⟨_, rfl⟩, fun fault hOffends => ?_⟩
      cases hOffends with
      | taken hOld => exact hName ((hTaken name).mpr hOld)
      | full hTakes => cases hTakes
  | comment text =>
    refine Or.inl ⟨⟨_, rfl⟩, fun fault hOffends => ?_⟩
    cases hOffends with
    | full hTakes => cases hTakes
  | load address | compute dest comp jump =>
    rw [placeLabels]
    split
    case isTrue hRoom =>
      refine Or.inl ⟨⟨_, rfl⟩, fun fault hOffends => ?_⟩
      cases hOffends with
      | full _ hNone => exact Nat.not_lt.mpr hNone hRoom
    case isFalse hRoom => exact Or.inr ⟨_, rfl, hFull rfl hRoom⟩

/-- **The first pass** succeeds if no instruction offends, and otherwise it fails with the fault of
the first one that does. -/
theorem placeLabels_outcome (code : Code) :
    (Code.Sound code ∧ ∃ table, placeLabels (Std.HashMap.ofList fixedSymbols) 0 code = .ok table) ∨
      ∃ fault, Code.FirstOffence code fault ∧
        placeLabels (Std.HashMap.ofList fixedSymbols) 0 code = .error fault := by
  induction code using List.reverseRecOn with
  | nil => exact Or.inl ⟨Code.sound_nil, _, rfl⟩
  | append_singleton code i ih =>
    rcases ih with ⟨hSound, table, hTable⟩ | ⟨fault, hFirst, hFault⟩
    · rcases placeLabels_last hTable i with ⟨hFinal, hNone⟩ | ⟨fault, hFault, hOffends⟩
      · exact Or.inl ⟨hSound.concat hNone, hFinal⟩
      · exact Or.inr ⟨fault, ⟨code, i, [], rfl, hSound, hOffends⟩, hFault⟩
    · refine Or.inr ⟨fault, hFirst.append [i], ?_⟩
      rw [placeLabels_append, hFault]
      rfl

theorem placeLabels_isOk_iff :
    (∃ table, placeLabels (Std.HashMap.ofList fixedSymbols) 0 code = .ok table) ↔
      Code.Sound code := by
  rcases placeLabels_outcome code with ⟨hSound, hTable⟩ | ⟨first, hFirst, hFault⟩
  · exact ⟨fun _ => hSound, fun _ => hTable⟩
  · rw [hFault]
    exact ⟨fun ⟨_, h⟩ => (by cases h), fun h => absurd h hFirst.not_sound⟩

theorem placeLabels_nodup {start : SymbolTable} {count : Nat}
    (h : placeLabels start count code = .ok table) : (Code.labels code).Nodup := by
  fun_induction placeLabels start count code with
  | case1 table count => exact List.nodup_nil
  | case2 table count label rest hTaken => cases h
  | case3 table count label rest hFree ih =>
    refine List.nodup_cons.mpr ⟨fun hLabel => ?_, ih h⟩
    exact placeLabels_free h label hLabel (Std.HashMap.mem_insert_self)
  | case4 table count text rest ih => exact ih h
  | case5 table count address rest hRoom ih => exact ih h
  | case6 table count address rest hFull => cases h
  | case7 table count dest comp jump rest hRoom ih => exact ih h
  | case8 table count dest comp jump rest hFull => cases h

/-- **No instruction offends** exactly if the labels are distinct and not fixed, and there is room
for the instructions. -/
theorem Code.sound_iff :
    Code.Sound code ↔
      (Code.labels code).Nodup ∧ (∀ name ∈ Code.labels code, name ∉ Image.fixedNames) ∧
        Code.size code ≤ romSize := by
  rw [← placeLabels_isOk_iff]
  constructor
  · rintro ⟨table, hTable⟩
    refine ⟨placeLabels_nodup hTable, fun name hName hFixed => ?_, ?_⟩
    · exact placeLabels_free hTable name hName ((Image.mem_fixedTable name).mpr hFixed)
    · simpa using placeLabels_size hTable (Nat.zero_le romSize)
  · rintro ⟨hNodup, hFree, hSize⟩
    refine placeLabels_isOk hNodup (fun name hName hTable => ?_) (by simpa using hSize)
    exact hFree name hName ((Image.mem_fixedTable name).mp hTable)

end Labels

/-! ### The second pass -/

section Variables

variable {table : SymbolTable} {next : Nat} {rom : Array Op} {code : Code}

/-- **The second pass fails at the first variable behind those that fit.** -/
theorem resolve_eq_noMemory (hNext : next ≤ ramSize) {name : String} :
    resolve table next rom code = .error (.noMemoryFor name) ↔
      (variableNames table code)[ramSize - next]? = some name := by
  fun_induction resolve table next rom code with
  | case1 table next rom => simp [variableNames, Code.symbols, unknown]
  | case2 table next rom value rest ih => exact ih hNext
  | case3 table next rom symbol rest found hFound ih =>
    rw [variableNames_load_of_known hFound]
    exact ih hNext
  | case4 table next rom symbol rest hNew hRoom fresh ih =>
    have hIndex : ramSize - next = ramSize - (next + 1) + 1 := by omega
    rw [variableNames_load_of_new hNew fresh, hIndex, List.getElem?_cons_succ]
    exact ih hRoom
  | case5 table next rom symbol rest hNew hFull =>
    have hIndex : ramSize - next = 0 := by omega
    rw [variableNames_load_of_new hNew 0, hIndex, List.getElem?_cons_zero]
    simp
  | case6 table next rom dest comp jump rest ih => exact ih hNext
  | case7 table next rom label rest ih => exact ih hNext
  | case8 table next rom text rest ih => exact ih hNext

theorem mem_resolve {image : Image} (h : resolve table next rom code = .ok image)
    (name : String) : name ∈ image.symbols ↔ name ∈ table ∨ name ∈ Code.symbols code := by
  fun_induction resolve table next rom code with
  | case1 table next rom => cases h; simp [Code.symbols]
  | case2 table next rom value rest ih => exact ih h
  | case3 table next rom symbol rest found hFound ih =>
    have hSymbols : Code.symbols (.load (.symbol symbol) :: rest) = symbol :: Code.symbols rest :=
      rfl
    have hOld : symbol ∈ table := Std.HashMap.mem_iff_isSome_getElem?.mpr (by rw [hFound]; rfl)
    rw [ih h, hSymbols, List.mem_cons]
    constructor
    · rintro (hName | hName)
      · exact Or.inl hName
      · exact Or.inr (Or.inr hName)
    · rintro (hName | rfl | hName)
      · exact Or.inl hName
      · exact Or.inl hOld
      · exact Or.inr hName
  | case4 table next rom symbol rest hNew hRoom fresh ih =>
    have hSymbols : Code.symbols (.load (.symbol symbol) :: rest) = symbol :: Code.symbols rest :=
      rfl
    rw [ih h, Std.HashMap.mem_insert, beq_iff_eq, hSymbols, List.mem_cons, @eq_comm _ name symbol]
    constructor
    · rintro ((hName | hName) | hName)
      · exact Or.inr (Or.inl hName)
      · exact Or.inl hName
      · exact Or.inr (Or.inr hName)
    · rintro (hName | hName | hName)
      · exact Or.inl (Or.inr hName)
      · exact Or.inl (Or.inl hName)
      · exact Or.inr hName
  | case5 table next rom symbol rest hNew hFull => cases h
  | case6 table next rom dest comp jump rest ih => exact ih h
  | case7 table next rom label rest ih => exact ih h
  | case8 table next rom text rest ih => exact ih h

end Variables

/-! ### Both passes -/

/-- What is in a machine into which a program was loaded. -/
structure Machine.Loaded (program : Code) (machine : Machine) : Prop where
  /-- Program memory holds the instructions in their order, with the symbols replaced. -/
  rom_eq : machine.image.rom.toList = Code.ops machine.image.address program
  /-- A symbol that is loaded is in the table, and that is what it is replaced by. -/
  symbol_loaded : ∀ name ∈ Code.symbols program,
    machine.symbol? name = some (machine.image.address name)
  /-- A label is the number of the instructions before it, wherever its uses stand. -/
  symbol_label : ∀ before name behind, program = before ++ .label name :: behind →
    Code.size before ≤ romSize ∧ machine.symbol? name = some (UInt16.ofNat (Code.size before))
  symbol_fixed : ∀ name address, (name, address) ∈ fixedSymbols →
    machine.symbol? name = some address
  /-- The variables lie one behind the other, in the order in which they first occur. -/
  symbol_variable : ∀ k name, (Image.variableSymbols program)[k]? = some name →
    variableBase + k < ramSize ∧ machine.symbol? name = some (UInt16.ofNat (variableBase + k))
  symbol_other : ∀ name, name ∉ Image.fixedNames → name ∉ Code.labels program →
    name ∉ Code.symbols program → machine.symbol? name = none
  cpu_eq : machine.cpu = {}

theorem Machine.loaded_of_load {program : Code} {machine : Machine}
    (h : Machine.load program = .ok machine) : machine.Loaded program := by
  obtain ⟨hImage, hCpu⟩ := Machine.load_eq_ok h
  refine ⟨Image.rom_of_load hImage, fun name hName => Image.getElem?_symbol hImage hName, ?_,
    fun name address hFixed => Image.getElem?_fixed hImage hFixed, ?_, ?_, hCpu⟩
  · intro before name behind hProgram
    have hAt : Code.At program (Code.size before) (.label name :: behind) :=
      ⟨before, [], by simpa using hProgram, rfl⟩
    have hRoom := Image.le_romSize_of_at hImage hAt
    exact ⟨by omega, Image.getElem?_label hImage hAt⟩
  · intro k name hName
    obtain ⟨hk, -⟩ := List.getElem?_eq_some_iff.mp hName
    have hRoom := Image.variables_fit hImage
    exact ⟨by omega, Image.getElem?_variable hImage hName⟩
  · intro name hFixed hLabel hSymbol
    obtain ⟨table, hPlace, hResolve⟩ := Image.load_eq_ok hImage
    refine Std.HashMap.getElem?_eq_none ?_
    rw [mem_resolve hResolve, mem_placeLabels hPlace, Image.mem_fixedTable]
    rintro ((hName | hName) | hName)
    · exact hFixed hName
    · exact hLabel hName
    · exact hSymbol hName

theorem Machine.load_isOk_iff {program : Code} :
    (∃ machine, Machine.load program = .ok machine) ↔
      (Code.labels program).Nodup ∧ (∀ name ∈ Code.labels program, name ∉ Image.fixedNames) ∧
        Code.size program ≤ romSize ∧
        variableBase + (Image.variableSymbols program).length ≤ ramSize := by
  constructor
  · rintro ⟨machine, h⟩
    obtain ⟨hImage, -⟩ := Machine.load_eq_ok h
    obtain ⟨table, hTable, -⟩ := Image.load_eq_ok hImage
    obtain ⟨hNodup, hFree, hSize⟩ := Code.sound_iff.mp (placeLabels_isOk_iff.mp ⟨table, hTable⟩)
    exact ⟨hNodup, hFree, hSize, Image.variables_fit hImage⟩
  · rintro ⟨hNodup, hFree, hSize, hVariables⟩
    obtain ⟨image, hImage⟩ := Image.load_isOk hNodup hFree hSize hVariables
    exact ⟨_, Machine.load_of_image hImage⟩

/-- Loading fails with what is wrong in the first pass, and in the second only if nothing was. -/
theorem Machine.load_eq_error_iff {program : Code} {fault : LoadFault} :
    Machine.load program = .error fault ↔
      Code.FirstOffence program fault ∨
        Code.Sound program ∧ ∃ name,
          (Image.variableSymbols program)[ramSize - variableBase]? = some name ∧
            fault = .noMemoryFor name := by
  rw [Machine.load_eq_error, Image.load]
  rcases placeLabels_outcome program with ⟨hSound, table, hTable⟩ | ⟨first, hFirst, hFault⟩
  · have hNone : ¬ Code.FirstOffence program fault := fun h => h.not_sound hSound
    have hNames : variableNames table program = Image.variableSymbols program := by
      rw [variableNames, Image.contains_placed hTable]
      rfl
    have hNoMemory : ∀ name, resolve table variableBase #[] program = .error (.noMemoryFor name) ↔
        (Image.variableSymbols program)[ramSize - variableBase]? = some name := by
      intro name
      rw [← hNames]
      exact resolve_eq_noMemory (by decide)
    have hPasses : (placeLabels (Std.HashMap.ofList fixedSymbols) 0 program >>= fun table =>
        resolve table variableBase #[] program) = resolve table variableBase #[] program := by
      rw [hTable]
      rfl
    rw [hPasses]
    constructor
    · intro h
      obtain ⟨name, rfl⟩ := resolve_eq_error h
      exact Or.inr ⟨hSound, name, (hNoMemory name).mp h, rfl⟩
    · rintro (h | ⟨-, name, hName, rfl⟩)
      · exact absurd h hNone
      · exact (hNoMemory name).mpr hName
  · have hPasses : (placeLabels (Std.HashMap.ofList fixedSymbols) 0 program >>= fun table =>
        resolve table variableBase #[] program) = .error first := by
      rw [hFault]
      rfl
    rw [hPasses]
    constructor
    · intro h
      cases h
      exact Or.inl hFirst
    · rintro (h | ⟨hSound, -⟩)
      · rw [hFirst.unique h]
      · exact absurd hSound hFirst.not_sound

/-- **Loading is exact.**  A program loads if and only if its labels are distinct and not fixed,
its instructions fit into program memory and its variables into the memory behind the registers.
What is then in the machine is `Machine.Loaded`.  If the program does not load, the fault is that of
the first instruction that offends, and if none does, the first variable that does not fit. -/
theorem load_exact (program : Code) :
    ((∃ machine, Machine.load program = .ok machine) ↔
      (Code.labels program).Nodup ∧ (∀ name ∈ Code.labels program, name ∉ Image.fixedNames) ∧
        Code.size program ≤ romSize ∧
        variableBase + (Image.variableSymbols program).length ≤ ramSize) ∧
    (∀ machine, Machine.load program = .ok machine → machine.Loaded program) ∧
    (∀ fault, Machine.load program = .error fault ↔
      Code.FirstOffence program fault ∨
        Code.Sound program ∧ ∃ name,
          (Image.variableSymbols program)[ramSize - variableBase]? = some name ∧
            fault = .noMemoryFor name) :=
  ⟨Machine.load_isOk_iff, fun _ h => Machine.loaded_of_load h,
    fun _ => Machine.load_eq_error_iff⟩

/-- A program that uses a label before it is declared, and two variables. -/
theorem loop_is_loaded :
    ∃ machine, Machine.load
        [.load (.symbol "end"), .load (.symbol "x"), .label "end", .load (.symbol "y"),
          .load (.symbol "x"), .load (.symbol "R3")] = .ok machine ∧
      machine.symbol? "end" = some 2 ∧ machine.symbol? "x" = some 16 ∧
      machine.symbol? "y" = some 17 ∧ machine.symbol? "R3" = some 3 := by
  obtain ⟨hLoads, hLoaded, -⟩ := load_exact
    [.load (.symbol "end"), .load (.symbol "x"), .label "end", .load (.symbol "y"),
      .load (.symbol "x"), .load (.symbol "R3")]
  obtain ⟨machine, hMachine⟩ := hLoads.mpr (by decide)
  have h := hLoaded machine hMachine
  exact ⟨machine, hMachine, (h.symbol_label [_, _] _ _ rfl).2, (h.symbol_variable 0 _ rfl).2,
    (h.symbol_variable 1 _ rfl).2, h.symbol_fixed _ _ (by decide)⟩

end HackVm
