import Mathlib.Data.List.Basic
import HackVm.Machine.Loader

/-!
# What is in a loaded program

A program that loads has its instructions in program memory, in order and with every symbol
replaced by the address that the table of the image has for it.

* `Code.At program pc code`: the code stands in the program at the address `pc`, where labels and
  comments are not counted.
* `Image.rom_of_load`: program memory holds the instructions of the program, resolved.
* `Image.address_label`: a label has the address at which it stands.
* `Image.address_fixed`: a fixed symbol keeps its address.
* `Image.address_variable`: the variables, which are the symbols that are neither fixed nor labels,
  have the addresses from `variableBase` on, in the order in which they first occur.
* `Image.load_isOk`: a program loads if its labels are distinct and not fixed, and if it fits.
-/

namespace HackVm

/-! ### Positions in code -/

/-- How many instructions there are in code, labels and comments not counted. -/
def Code.size (code : Code) : Nat :=
  code.countP Instruction.isExecutable

theorem Code.size_append (code rest : Code) :
    Code.size (code ++ rest) = Code.size code + Code.size rest :=
  List.countP_append

theorem Code.size_cons_of_executable {i : Instruction} (h : i.isExecutable = true) (code : Code) :
    Code.size (i :: code) = Code.size code + 1 :=
  List.countP_cons_of_pos h

theorem Code.size_cons_of_not {i : Instruction} (h : i.isExecutable = false) (code : Code) :
    Code.size (i :: code) = Code.size code :=
  List.countP_cons_of_neg (by simp [h])

/-- The code stands in the program, with `pc` instructions before it. -/
def Code.At (program : Code) (pc : Nat) (code : Code) : Prop :=
  ∃ before behind, program = before ++ code ++ behind ∧ pc = Code.size before

namespace Code.At

variable {program code rest : Code} {pc : Nat}

theorem left (h : At program pc (code ++ rest)) : At program pc code := by
  obtain ⟨before, behind, rfl, rfl⟩ := h
  exact ⟨before, rest ++ behind, by simp, rfl⟩

theorem right (h : At program pc (code ++ rest)) : At program (pc + Code.size code) rest := by
  obtain ⟨before, behind, rfl, rfl⟩ := h
  exact ⟨before ++ code, behind, by simp, (Code.size_append before code).symm⟩

/-- What stands behind a stretch of code and one more instruction. -/
theorem behind {i : Instruction} (h : At program pc (code ++ i :: rest)) :
    At program (pc + Code.size code + Code.size [i]) rest :=
  (show At program _ ([i] ++ rest) from h.right).right

end Code.At

/-- A label stands in code between what is before it and what is behind it. -/
theorem Code.exists_label {code : Code} {name : String} (h : name ∈ Code.labels code) :
    ∃ before behind, code = before ++ .label name :: behind := by
  obtain ⟨i, hMem, hLabel⟩ := List.mem_filterMap.mp h
  obtain ⟨before, behind, rfl⟩ := List.append_of_mem hMem
  cases i with
  | label other => cases hLabel; exact ⟨before, behind, rfl⟩
  | _ => cases hLabel

/-- Where no label is declared twice, each stands at one place. -/
theorem Code.cut_unique {before behind before' behind' : Code} {name : String}
    (hNodup : (Code.labels (before ++ .label name :: behind)).Nodup)
    (h : before ++ .label name :: behind = before' ++ .label name :: behind') :
    before = before' := by
  have hLabels : Code.labels (before ++ .label name :: behind) =
      Code.labels before ++ name :: Code.labels behind :=
    Code.labels_append _ _
  rw [hLabels] at hNodup
  obtain ⟨-, hBehind, hDisjoint⟩ := List.nodup_append.mp hNodup
  have hLabel : ∀ {code : Code}, Instruction.label name ∈ code → name ∈ Code.labels code :=
    fun hMem => List.mem_filterMap.mpr ⟨_, hMem, rfl⟩
  have hNotBefore : Instruction.label name ∉ before := fun hMem =>
    hDisjoint name (hLabel hMem) name List.mem_cons_self rfl
  have hNotBehind : Instruction.label name ∉ behind := fun hMem =>
    (List.nodup_cons.mp hBehind).1 (hLabel hMem)
  exact ((List.append_cons_inj_of_notMem hNotBefore hNotBehind).mp h).1

/-! ### Instructions with their symbols replaced -/

/-- The instruction as it is loaded, given the addresses of the symbols; `none` for a label or a
comment. -/
def Instruction.op? (address : String → Word) : Instruction → Option Op
  | load (.symbol name) => some (.load (address name))
  | load (.number value) => some (.load value)
  | compute dest comp jump => some (.compute dest comp jump)
  | label _ => none
  | comment _ => none

/-- The instructions of code as they are loaded. -/
def Code.ops (address : String → Word) (code : Code) : List Op :=
  code.filterMap (·.op? address)

theorem Code.ops_append (address : String → Word) (code rest : Code) :
    Code.ops address (code ++ rest) = Code.ops address code ++ Code.ops address rest :=
  List.filterMap_append

theorem Instruction.isSome_op? (address : String → Word) (i : Instruction) :
    (i.op? address).isSome = i.isExecutable := by
  rcases i with (_ | _) | _ | _ | _ <;> rfl

theorem Code.length_ops (address : String → Word) (code : Code) :
    (Code.ops address code).length = Code.size code := by
  rw [Code.ops, List.length_filterMap_eq_countP]
  simp only [Instruction.isSome_op?]
  rfl

/-- The loaded instruction at the address where code begins. -/
theorem Code.At.getElem?_ops {program code : Code} {pc : Nat} {i : Instruction} {op : Op}
    {address : String → Word} (h : At program pc (i :: code)) (hOp : i.op? address = some op) :
    (Code.ops address program)[pc]? = some op := by
  obtain ⟨before, behind, rfl, rfl⟩ := h
  rw [List.append_assoc, Code.ops_append, ← Code.length_ops address before,
    List.getElem?_append_right (Nat.le_refl _), Nat.sub_self, List.cons_append, Code.ops,
    List.filterMap_cons_some hOp, List.getElem?_cons_zero]

/-! ### Symbols that are new -/

/-- The symbols that code loads, each time it does. -/
def Code.symbols (code : Code) : List String :=
  code.filterMap fun
    | .load (.symbol name) => some name
    | _ => none

theorem Code.exists_symbol {code : Code} {name : String} (h : name ∈ Code.symbols code) :
    ∃ before behind, code = before ++ .load (.symbol name) :: behind := by
  obtain ⟨i, hMem, hName⟩ := List.mem_filterMap.mp h
  obtain ⟨before, behind, rfl⟩ := List.append_of_mem hMem
  split at hName
  · cases hName
    exact ⟨before, behind, rfl⟩
  · cases hName

/-- Every symbol is loaded by an instruction. -/
theorem Code.length_symbols_le (code : Code) : (Code.symbols code).length ≤ Code.size code := by
  rw [Code.symbols, List.length_filterMap_eq_countP, Code.size]
  apply List.countP_mono_left
  intro i _ hSymbol
  rcases i with _ | _ | _ | _ | _
  · rfl
  all_goals cases hSymbol

/-- The names that are not known yet, each once, in the order in which they first occur. -/
def unknown (known : String → Bool) (names : List String) : List String :=
  (names.filter (!known ·)).eraseDups

theorem unknown_cons (known : String → Bool) (name : String) (names : List String) :
    unknown known (name :: names) =
      if known name then unknown known names
      else name :: unknown (fun other => name == other || known other) names := by
  unfold unknown
  cases hKnown : known name
  · rw [List.filter_cons_of_pos (by simp [hKnown]), List.eraseDups_cons, List.filter_filter]
    simp only [Bool.false_eq_true, if_false]
    congr 3
    funext other
    rw [Bool.not_or, BEq.comm]
  · rw [List.filter_cons_of_neg (by simp [hKnown])]
    simp

/-- No symbol is new twice. -/
theorem length_unknown_le {names : List String} : ∀ {known : String → Bool},
    (unknown known names).length ≤ names.length := by
  induction names with
  | nil => intro known; exact Nat.le_refl 0
  | cons name names ih =>
    intro known
    rw [unknown_cons]
    split
    · exact Nat.le_succ_of_le ih
    · exact Nat.succ_le_succ ih

/-! ### The first pass -/

section Labels

variable {table final : SymbolTable} {count : Nat} {code : Code}

/-- A label never replaces a symbol. -/
theorem placeLabels_retains (h : placeLabels table count code = .ok final) {name : String}
    {address : Word} (hName : table[name]? = some address) : final[name]? = some address := by
  fun_induction placeLabels table count code with
  | case1 table count => cases h; exact hName
  | case2 table count label rest hTaken => cases h
  | case3 table count label rest hFree ih =>
    refine ih h ?_
    rw [Std.HashMap.getElem?_insert, if_neg ?_]
    · exact hName
    · intro hEq
      rw [eq_of_beq hEq, Std.HashMap.contains_eq_isSome_getElem?, hName] at hFree
      exact hFree rfl
  | case4 table count text rest ih => exact ih h hName
  | case5 table count address rest hRoom ih => exact ih h hName
  | case6 table count address rest hFull => cases h
  | case7 table count dest comp jump rest hRoom ih => exact ih h hName
  | case8 table count dest comp jump rest hFull => cases h

/-- The pass over code laid end to end. -/
theorem placeLabels_append (code rest : Code) : ∀ (table : SymbolTable) (count : Nat),
    placeLabels table count (code ++ rest) =
      placeLabels table count code >>= fun next =>
        placeLabels next (count + Code.size code) rest := by
  induction code with
  | nil => intro table count; rfl
  | cons i code ih =>
    intro table count
    rw [List.cons_append]
    cases i with
    | label name =>
      rw [placeLabels, placeLabels, ih, Code.size_cons_of_not rfl]
      split <;> rfl
    | comment text =>
      rw [placeLabels, placeLabels, ih, Code.size_cons_of_not rfl]
    | load address =>
      rw [placeLabels, placeLabels, ih, Code.size_cons_of_executable rfl, Nat.add_right_comm,
        Nat.add_assoc count]
      split <;> rfl
    | compute dest comp jump =>
      rw [placeLabels, placeLabels, ih, Code.size_cons_of_executable rfl, Nat.add_right_comm,
        Nat.add_assoc count]
      split <;> rfl

theorem placeLabels_append_eq_ok {code rest : Code} :
    placeLabels table count (code ++ rest) = .ok final ↔
      ∃ middle, placeLabels table count code = .ok middle ∧
        placeLabels middle (count + Code.size code) rest = .ok final := by
  rw [placeLabels_append]
  cases hCode : placeLabels table count code with
  | error fault => simp [bind, Except.bind]
  | ok middle => simp [bind, Except.bind]

/-- A label gets the address at which it stands. -/
theorem placeLabels_label {name : String} {before behind : Code}
    (h : placeLabels table count (before ++ .label name :: behind) = .ok final) :
    final[name]? = some (UInt16.ofNat (count + Code.size before)) := by
  obtain ⟨middle, -, hRest⟩ := placeLabels_append_eq_ok.mp h
  rw [placeLabels] at hRest
  split at hRest
  · cases hRest
  · exact placeLabels_retains hRest (by simp)

/-- The table has the symbols it had and the labels. -/
theorem mem_placeLabels (h : placeLabels table count code = .ok final) (name : String) :
    name ∈ final ↔ name ∈ table ∨ name ∈ Code.labels code := by
  fun_induction placeLabels table count code with
  | case1 table count => cases h; simp [Code.labels]
  | case2 table count label rest hTaken => cases h
  | case3 table count label rest hFree ih =>
    have hLabels : Code.labels (.label label :: rest) = label :: Code.labels rest := rfl
    rw [ih h, Std.HashMap.mem_insert, beq_iff_eq, hLabels, List.mem_cons, @eq_comm _ name label]
    constructor
    · rintro ((hName | hName) | hName)
      · exact Or.inr (Or.inl hName)
      · exact Or.inl hName
      · exact Or.inr (Or.inr hName)
    · rintro (hName | hName | hName)
      · exact Or.inl (Or.inr hName)
      · exact Or.inl (Or.inl hName)
      · exact Or.inr hName
  | case4 table count text rest ih => exact ih h
  | case5 table count address rest hRoom ih => exact ih h
  | case6 table count address rest hFull => cases h
  | case7 table count dest comp jump rest hRoom ih => exact ih h
  | case8 table count dest comp jump rest hFull => cases h

theorem placeLabels_size (h : placeLabels table count code = .ok final) (hCount : count ≤ romSize) :
    count + Code.size code ≤ romSize := by
  fun_induction placeLabels table count code with
  | case1 table count => simpa [Code.size] using hCount
  | case2 table count label rest hTaken => cases h
  | case3 table count label rest hFree ih =>
    rw [Code.size_cons_of_not rfl]
    exact ih h hCount
  | case4 table count text rest ih =>
    rw [Code.size_cons_of_not rfl]
    exact ih h hCount
  | case5 table count address rest hRoom ih =>
    have := ih h hRoom
    rw [Code.size_cons_of_executable rfl]
    omega
  | case6 table count address rest hFull => cases h
  | case7 table count dest comp jump rest hRoom ih =>
    have := ih h hRoom
    rw [Code.size_cons_of_executable rfl]
    omega
  | case8 table count dest comp jump rest hFull => cases h

theorem placeLabels_isOk (hNodup : (Code.labels code).Nodup)
    (hFree : ∀ name ∈ Code.labels code, name ∉ table) (hSize : count + Code.size code ≤ romSize) :
    ∃ final, placeLabels table count code = .ok final := by
  fun_induction placeLabels table count code with
  | case1 table count => exact ⟨table, rfl⟩
  | case2 table count label rest hTaken =>
    exact absurd (Std.HashMap.mem_iff_contains.mpr hTaken) (hFree label (by simp [Code.labels,
      Instruction.declared?]))
  | case3 table count label rest _ ih =>
    have hLabels : Code.labels (.label label :: rest) = label :: Code.labels rest := rfl
    rw [hLabels] at hNodup hFree
    obtain ⟨hNew, hRest⟩ := List.nodup_cons.mp hNodup
    refine ih hRest (fun name hName => ?_) (by rwa [Code.size_cons_of_not rfl] at hSize)
    rw [Std.HashMap.mem_insert, beq_iff_eq]
    rintro (rfl | hOld)
    · exact hNew hName
    · exact hFree name (List.mem_cons_of_mem label hName) hOld
  | case4 table count text rest ih =>
    exact ih hNodup hFree (by rwa [Code.size_cons_of_not rfl] at hSize)
  | case5 table count address rest hRoom ih =>
    rw [Code.size_cons_of_executable rfl] at hSize
    exact ih hNodup hFree (by omega)
  | case6 table count address rest hFull =>
    rw [Code.size_cons_of_executable rfl] at hSize
    omega
  | case7 table count dest comp jump rest hRoom ih =>
    rw [Code.size_cons_of_executable rfl] at hSize
    exact ih hNodup hFree (by omega)
  | case8 table count dest comp jump rest hFull =>
    rw [Code.size_cons_of_executable rfl] at hSize
    omega

end Labels

/-! ### The second pass -/

/-- The address of a symbol in a loaded program. -/
def Image.address (image : Image) (name : String) : Word :=
  image.symbols[name]?.getD 0

theorem Image.address_of_getElem? {image : Image} {name : String} {address : Word}
    (h : image.symbols[name]? = some address) : image.address name = address := by
  rw [Image.address, h, Option.getD_some]

section Variables

variable {table : SymbolTable} {next : Nat} {rom : Array Op} {code : Code} {image : Image}

/-- Resolving adds symbols and never replaces one. -/
theorem resolve_retains (h : resolve table next rom code = .ok image) {name : String}
    {address : Word} (hName : table[name]? = some address) :
    image.symbols[name]? = some address := by
  fun_induction resolve table next rom code with
  | case1 table next rom => cases h; exact hName
  | case2 table next rom value rest ih => exact ih h hName
  | case3 table next rom symbol rest found hFound ih => exact ih h hName
  | case4 table next rom symbol rest hNew hRoom fresh ih =>
    refine ih h ?_
    rw [Std.HashMap.getElem?_insert, if_neg ?_]
    · exact hName
    · intro hEq
      rw [eq_of_beq hEq, hName] at hNew
      cases hNew
  | case5 table next rom symbol rest hNew hFull => cases h
  | case6 table next rom dest comp jump rest ih => exact ih h hName
  | case7 table next rom label rest ih => exact ih h hName
  | case8 table next rom text rest ih => exact ih h hName

/-- The code is resolved with the addresses of the final table. -/
theorem resolve_rom (h : resolve table next rom code = .ok image) :
    image.rom.toList = rom.toList ++ Code.ops image.address code := by
  fun_induction resolve table next rom code with
  | case1 table next rom => cases h; simp [Code.ops]
  | case2 table next rom value rest ih =>
    rw [ih h, Array.toList_push, List.append_assoc]
    rfl
  | case3 table next rom symbol rest found hFound ih =>
    rw [ih h, Array.toList_push, List.append_assoc,
      ← Image.address_of_getElem? (resolve_retains h hFound)]
    rfl
  | case4 table next rom symbol rest hNew hRoom fresh ih =>
    have hAddress : image.address symbol = fresh :=
      Image.address_of_getElem? (resolve_retains h (by simp))
    rw [ih h, Array.toList_push, List.append_assoc, ← hAddress]
    rfl
  | case5 table next rom symbol rest hNew hFull => cases h
  | case6 table next rom dest comp jump rest ih =>
    rw [ih h, Array.toList_push, List.append_assoc]
    rfl
  | case7 table next rom label rest ih => exact ih h
  | case8 table next rom text rest ih => exact ih h

/-- The symbols of code that are not in a table, in the order in which they first occur. -/
def variableNames (table : SymbolTable) (code : Code) : List String :=
  unknown table.contains (Code.symbols code)

theorem variableNames_load_of_known {name : String} {address : Word}
    (h : table[name]? = some address) (code : Code) :
    variableNames table (.load (.symbol name) :: code) = variableNames table code := by
  have hContains : table.contains name = true := by
    rw [Std.HashMap.contains_eq_isSome_getElem?, h]
    rfl
  have hSymbols : Code.symbols (.load (.symbol name) :: code) = name :: Code.symbols code := rfl
  rw [variableNames, hSymbols, unknown_cons, if_pos hContains]
  rfl

theorem variableNames_load_of_new {name : String} (h : table[name]? = none) (address : Word)
    (code : Code) :
    variableNames table (.load (.symbol name) :: code) =
      name :: variableNames (table.insert name address) code := by
  have hSymbols : Code.symbols (.load (.symbol name) :: code) = name :: Code.symbols code := rfl
  have hContains : table.contains name = false := by
    rw [Std.HashMap.contains_eq_isSome_getElem?, h]
    rfl
  have hInsert : (table.insert name address).contains =
      fun other => name == other || table.contains other := by
    funext other
    exact Std.HashMap.contains_insert
  rw [variableNames, hSymbols, unknown_cons, hContains, if_neg (by simp), variableNames, hInsert]

/-- The variables get the addresses from `next` on. -/
theorem resolve_variable (h : resolve table next rom code = .ok image) {i : Nat} {name : String}
    (hName : (variableNames table code)[i]? = some name) :
    image.symbols[name]? = some (UInt16.ofNat (next + i)) := by
  fun_induction resolve table next rom code generalizing i with
  | case1 table next rom => simp [variableNames, Code.symbols, unknown] at hName
  | case2 table next rom value rest ih => exact ih h hName
  | case3 table next rom symbol rest found hFound ih =>
    rw [variableNames_load_of_known hFound] at hName
    exact ih h hName
  | case4 table next rom symbol rest hNew hRoom fresh ih =>
    rw [variableNames_load_of_new hNew fresh] at hName
    cases i with
    | zero =>
      cases hName
      exact resolve_retains h (by simp [fresh])
    | succ i =>
      rw [ih h hName]
      congr 2
      omega
  | case5 table next rom symbol rest hNew hFull => cases h
  | case6 table next rom dest comp jump rest ih => exact ih h hName
  | case7 table next rom label rest ih => exact ih h hName
  | case8 table next rom text rest ih => exact ih h hName

/-- There is memory for every variable of a program that loads. -/
theorem resolve_size (h : resolve table next rom code = .ok image) (hNext : next ≤ ramSize) :
    next + (variableNames table code).length ≤ ramSize := by
  fun_induction resolve table next rom code with
  | case1 table next rom => simpa [variableNames, Code.symbols, unknown] using hNext
  | case2 table next rom value rest ih => exact ih h hNext
  | case3 table next rom symbol rest found hFound ih =>
    rw [variableNames_load_of_known hFound]
    exact ih h hNext
  | case4 table next rom symbol rest hNew hRoom fresh ih =>
    have := ih h hRoom
    rw [variableNames_load_of_new hNew fresh, List.length_cons]
    omega
  | case5 table next rom symbol rest hNew hFull => cases h
  | case6 table next rom dest comp jump rest ih => exact ih h hNext
  | case7 table next rom label rest ih => exact ih h hNext
  | case8 table next rom text rest ih => exact ih h hNext

theorem resolve_isOk (hSize : next + (variableNames table code).length ≤ ramSize) :
    ∃ image, resolve table next rom code = .ok image := by
  fun_induction resolve table next rom code with
  | case1 table next rom => exact ⟨_, rfl⟩
  | case2 table next rom value rest ih => exact ih hSize
  | case3 table next rom symbol rest found hFound ih =>
    rw [variableNames_load_of_known hFound] at hSize
    exact ih hSize
  | case4 table next rom symbol rest hNew hRoom fresh ih =>
    rw [variableNames_load_of_new hNew fresh, List.length_cons] at hSize
    exact ih (by omega)
  | case5 table next rom symbol rest hNew hFull =>
    rw [variableNames_load_of_new hNew 0, List.length_cons] at hSize
    omega
  | case6 table next rom dest comp jump rest ih => exact ih hSize
  | case7 table next rom label rest ih => exact ih hSize
  | case8 table next rom text rest ih => exact ih hSize

end Variables

/-! ### Both passes -/

namespace Image

variable {program : Code} {image : Image}

/-- The names of the fixed symbols. -/
def fixedNames : List String :=
  fixedSymbols.map Prod.fst

/-- The variables of a program: the symbols that are neither fixed nor labels, each once, in the
order in which they first occur. -/
def variableSymbols (program : Code) : List String :=
  unknown (fun s => decide (s ∈ fixedNames ∨ s ∈ Code.labels program)) (Code.symbols program)

theorem mem_variableSymbols {name : String} :
    name ∈ variableSymbols program ↔
      name ∈ Code.symbols program ∧ name ∉ fixedNames ∧ name ∉ Code.labels program := by
  rw [variableSymbols, unknown, List.mem_eraseDups, List.mem_filter]
  simp

theorem nodup_fixedNames : fixedNames.Nodup := by
  decide

theorem mem_fixedTable (name : String) :
    name ∈ (Std.HashMap.ofList fixedSymbols : SymbolTable) ↔ name ∈ fixedNames := by
  rw [Std.HashMap.mem_ofList, List.contains_iff_mem]
  rfl

theorem getElem?_fixedTable {name : String} {address : Word} (h : (name, address) ∈ fixedSymbols) :
    (Std.HashMap.ofList fixedSymbols : SymbolTable)[name]? = some address := by
  refine Std.HashMap.getElem?_ofList_of_mem (beq_self_eq_true name) ?_ h
  have := List.pairwise_map.mp nodup_fixedNames
  exact this.imp fun hNe => beq_eq_false_iff_ne.mpr hNe

theorem load_eq_ok (h : Image.load program = .ok image) :
    ∃ table, placeLabels (Std.HashMap.ofList fixedSymbols) 0 program = .ok table ∧
      resolve table variableBase #[] program = .ok image := by
  rw [Image.load] at h
  cases hTable : placeLabels (Std.HashMap.ofList fixedSymbols) 0 program with
  | error fault =>
    rw [hTable] at h
    cases h
  | ok table =>
    rw [hTable] at h
    exact ⟨table, rfl, h⟩

/-- **Program memory** holds the instructions of the program, with their symbols replaced. -/
theorem rom_of_load (h : Image.load program = .ok image) :
    image.rom.toList = Code.ops image.address program := by
  obtain ⟨table, -, hResolve⟩ := load_eq_ok h
  simpa using resolve_rom hResolve

theorem size_rom (h : Image.load program = .ok image) : image.rom.size = Code.size program := by
  rw [← Array.length_toList, rom_of_load h, Code.length_ops]

theorem size_of_load (h : Image.load program = .ok image) : Code.size program ≤ romSize := by
  obtain ⟨table, hPlace, -⟩ := load_eq_ok h
  simpa using placeLabels_size hPlace (Nat.zero_le romSize)

/-- Code of a program that loads ends within program memory. -/
theorem le_romSize_of_at (h : Image.load program = .ok image) {pc : Nat} {code : Code}
    (hAt : Code.At program pc code) : pc + Code.size code ≤ romSize := by
  obtain ⟨before, behind, hProgram, rfl⟩ := hAt
  have hSize := size_of_load h
  rw [hProgram, Code.size_append, Code.size_append] at hSize
  omega

theorem getElem?_label (h : Image.load program = .ok image) {name : String} {pc : Nat}
    {rest : Code} (hAt : Code.At program pc (.label name :: rest)) :
    image.symbols[name]? = some (UInt16.ofNat pc) := by
  obtain ⟨table, hPlace, hResolve⟩ := load_eq_ok h
  obtain ⟨before, behind, hProgram, rfl⟩ := hAt
  rw [hProgram, List.append_assoc, List.cons_append] at hPlace
  rw [resolve_retains hResolve (placeLabels_label hPlace), Nat.zero_add]

/-- **A label** has the address at which it stands. -/
theorem address_label (h : Image.load program = .ok image) {name : String} {pc : Nat}
    {rest : Code} (hAt : Code.At program pc (.label name :: rest)) :
    (image.address name).toNat = pc := by
  have hSize := le_romSize_of_at h hAt
  rw [address_of_getElem? (getElem?_label h hAt), UInt16.toNat_ofNat']
  unfold romSize at hSize
  omega

theorem getElem?_fixed (h : Image.load program = .ok image) {name : String} {address : Word}
    (hFixed : (name, address) ∈ fixedSymbols) : image.symbols[name]? = some address := by
  obtain ⟨table, hPlace, hResolve⟩ := load_eq_ok h
  exact resolve_retains hResolve (placeLabels_retains hPlace (getElem?_fixedTable hFixed))

/-- **A fixed symbol** keeps its address. -/
theorem address_fixed (h : Image.load program = .ok image) {name : String} {address : Word}
    (hFixed : (name, address) ∈ fixedSymbols) : image.address name = address :=
  address_of_getElem? (getElem?_fixed h hFixed)

theorem contains_placed {table : SymbolTable}
    (h : placeLabels (Std.HashMap.ofList fixedSymbols) 0 program = .ok table) :
    table.contains = fun s => decide (s ∈ fixedNames ∨ s ∈ Code.labels program) := by
  funext s
  rw [Bool.eq_iff_iff, decide_eq_true_iff, Std.HashMap.contains_iff_mem, mem_placeLabels h,
    mem_fixedTable]

theorem getElem?_variable (h : Image.load program = .ok image) {i : Nat} {name : String}
    (hName : (variableSymbols program)[i]? = some name) :
    image.symbols[name]? = some (UInt16.ofNat (variableBase + i)) := by
  obtain ⟨table, hPlace, hResolve⟩ := load_eq_ok h
  refine resolve_variable hResolve ?_
  rw [variableNames, contains_placed hPlace]
  exact hName

/-- **A variable** has its address by the order in which the variables first occur. -/
theorem address_variable (h : Image.load program = .ok image) {i : Nat} {name : String}
    (hName : (variableSymbols program)[i]? = some name) :
    image.address name = UInt16.ofNat (variableBase + i) :=
  address_of_getElem? (getElem?_variable h hName)

/-- **Every symbol** that a program loads has an address. -/
theorem getElem?_symbol (h : Image.load program = .ok image) {name : String}
    (hName : name ∈ Code.symbols program) : image.symbols[name]? = some (image.address name) := by
  have hFound : ∃ address, image.symbols[name]? = some address := by
    by_cases hKnown : name ∈ fixedNames ∨ name ∈ Code.labels program
    · obtain ⟨table, hPlace, hResolve⟩ := load_eq_ok h
      have hContains : table.contains name = true := by
        rw [contains_placed hPlace]
        exact decide_eq_true hKnown
      rw [Std.HashMap.contains_eq_isSome_getElem?] at hContains
      obtain ⟨address, hAddress⟩ := Option.isSome_iff_exists.mp hContains
      exact ⟨address, resolve_retains hResolve hAddress⟩
    · obtain ⟨hFixed, hLabel⟩ := not_or.mp hKnown
      obtain ⟨i, hi⟩ :=
        List.mem_iff_getElem?.mp (mem_variableSymbols.mpr ⟨hName, hFixed, hLabel⟩)
      exact ⟨_, getElem?_variable h hi⟩
  obtain ⟨address, hAddress⟩ := hFound
  rw [address_of_getElem? hAddress, hAddress]

/-- There is memory for the variables of a program that loads. -/
theorem variables_fit (h : Image.load program = .ok image) :
    variableBase + (variableSymbols program).length ≤ ramSize := by
  obtain ⟨table, hPlace, hResolve⟩ := load_eq_ok h
  rw [variableSymbols, ← contains_placed hPlace]
  exact resolve_size hResolve (by decide)

/-- **A program loads** if its labels are distinct and not fixed, and if it fits. -/
theorem load_isOk (hNodup : (Code.labels program).Nodup)
    (hFixed : ∀ name ∈ Code.labels program, name ∉ fixedNames)
    (hRom : Code.size program ≤ romSize)
    (hRam : variableBase + (variableSymbols program).length ≤ ramSize) :
    ∃ image, Image.load program = .ok image := by
  have hFree : ∀ name ∈ Code.labels program,
      name ∉ (Std.HashMap.ofList fixedSymbols : SymbolTable) :=
    fun name hName h => hFixed name hName ((mem_fixedTable name).mp h)
  have hCount : 0 + Code.size program ≤ romSize := by
    rw [Nat.zero_add]
    exact hRom
  obtain ⟨table, hPlace⟩ := placeLabels_isOk hNodup hFree hCount
  have hVariables : variableBase + (variableNames table program).length ≤ ramSize := by
    rw [variableNames, contains_placed hPlace]
    exact hRam
  obtain ⟨image, hResolve⟩ := @resolve_isOk _ _ #[] _ hVariables
  refine ⟨image, ?_⟩
  rw [Image.load, hPlace]
  exact hResolve

/-- **A small program without labels loads.**  Every variable takes an instruction of its own. -/
theorem load_isOk_of_small (hLabels : Code.labels program = [])
    (hSize : variableBase + Code.size program ≤ ramSize) :
    ∃ image, Image.load program = .ok image := by
  have hVariables : (variableSymbols program).length ≤ Code.size program :=
    Nat.le_trans length_unknown_le (Code.length_symbols_le program)
  apply load_isOk
  · rw [hLabels]
    exact List.nodup_nil
  · intro name hName
    rw [hLabels] at hName
    cases hName
  · exact Nat.le_trans (Nat.le_add_left _ variableBase) hSize
  · exact Nat.le_trans (Nat.add_le_add_left hVariables _) hSize

end Image

end HackVm
