import Mathlib.Data.List.Basic
import HackVm.Proofs.CommandCode
import HackVm.Proofs.Reference

/-!
# Where static variables lie

The loader gives the variables of a program their memory in the order in which they first occur.
The code of a command brings in no symbol but that of its static variable, as long as all other
symbols are known: those that are fixed, those that the code declares itself and those that it jumps
to (`Site.newSymbols`).  So the variables of a program are its static variables, and each lies where
the reference interpreter has it (`address_static`).
-/

namespace HackVm

open Instruction

/-! ### Symbols in code -/

namespace Code

variable (code rest : Code)

theorem symbols_append : symbols (code ++ rest) = symbols code ++ symbols rest :=
  List.filterMap_append

@[simp] theorem symbols_nil : symbols [] = [] := rfl

@[simp] theorem symbols_load_symbol (name : String) :
    symbols (load (.symbol name) :: code) = name :: symbols code := rfl

@[simp] theorem symbols_load_number (value : Word) :
    symbols (load (.number value) :: code) = symbols code := rfl

@[simp] theorem symbols_symbol (name : String) :
    symbols (symbol name :: code) = name :: symbols code := rfl

@[simp] theorem symbols_number (value : Word) : symbols (number value :: code) = symbols code := rfl

@[simp] theorem symbols_set (dest : Dest) (comp : Comp) :
    symbols (set dest comp :: code) = symbols code := rfl

@[simp] theorem symbols_branch (comp : Comp) (jump : Jump) :
    symbols (branch comp jump :: code) = symbols code := rfl

@[simp] theorem symbols_label (name : String) : symbols (label name :: code) = symbols code := rfl

@[simp] theorem symbols_comment (text : String) :
    symbols (comment text :: code) = symbols code := rfl

end Code

/-- A static variable is never a fixed symbol, since its name has a point in it. -/
theorem Scope.variableSymbol_not_fixed (scope : Scope) (index : Word) :
    scope.variableSymbol index ∉ Image.fixedNames := by
  intro h
  have hPoint : ∀ name ∈ Image.fixedNames, '.' ∉ name.toList := by decide
  apply hPoint _ h
  simp [variableSymbol]

/-- The index of the static variable that a command reads or writes. -/
def Command.static? : Command → Option Word
  | push .static index => some index
  | pop .static index => some index
  | _ => none

theorem Site.static?_eq (site : Site) :
    site.static? = site.command.static?.map site.scope.variableSymbol := by
  obtain ⟨scope, command, address⟩ := site
  cases command with
  | push segment index => cases segment <;> rfl
  | pop segment index => cases segment <;> rfl
  | _ => rfl

theorem Site.static_not_fixed {site : Site} {symbol : String}
    (h : site.static? = some symbol) : symbol ∉ Image.fixedNames := by
  rw [static?_eq] at h
  obtain ⟨index, -, rfl⟩ := Option.map_eq_some_iff.mp h
  exact site.scope.variableSymbol_not_fixed index

theorem Site.toList_static_push (scope : Scope) (segment : Segment) (index : Word)
    (address : Nat) : (Site.mk scope (.push segment index) address).static?.toList =
      if segment = .static then [scope.variableSymbol index] else [] := by
  cases segment <;> rfl

theorem Site.toList_static_pop (scope : Scope) (segment : Segment) (index : Word)
    (address : Nat) : (Site.mk scope (.pop segment index) address).static?.toList =
      if segment = .static then [scope.variableSymbol index] else [] := by
  cases segment <;> rfl

theorem fixed_of_base : ∀ pair ∈ baseRegisters, pair.1 ∈ Image.fixedNames := by
  decide

section NewSymbols

variable {known : String → Bool} (hFixed : ∀ name ∈ Image.fixedNames, known name = true)

include hFixed

theorem newSymbols_pushD : (Code.symbols pushD).filter (!known ·) = [] := by
  simp [pushD, hFixed "SP" (by decide)]

theorem newSymbols_popD : (Code.symbols popD).filter (!known ·) = [] := by
  simp [popD, hFixed "SP" (by decide)]

theorem newSymbols_pushCode {scope : Scope} {segment : Segment} {index : Word} {code : Code}
    (hCode : pushCode scope segment index = .ok code)
    (hStatic : segment = .static → known (scope.variableSymbol index) = false) :
    (Code.symbols code).filter (!known ·) =
      if segment = .static then [scope.variableSymbol index] else [] := by
  obtain ⟨place, hPlace, rfl⟩ := pushCode_eq_ok hCode
  rw [Code.symbols_append, List.filter_append, newSymbols_pushD hFixed, List.append_nil]
  cases hPlace with
  | literal => rfl
  | named => simp [Place.read, hStatic rfl]
  | based hBase hName =>
    have hKnown := hFixed _ (fixed_of_base _ hName)
    rw [if_neg (by rintro rfl; cases hBase)]
    simp [Place.read, hKnown]
  | slot hOther _ _ =>
    rw [if_neg hOther]
    rfl

theorem newSymbols_storeDirect (place : Address) :
    (Code.symbols (Target.direct place).store).filter (!known ·) =
      (Code.symbols [load place]).filter (!known ·) := by
  rw [Target.store, Code.symbols_append, List.filter_append, newSymbols_popD hFixed,
    List.nil_append]
  cases place <;> rfl

theorem newSymbols_popCode {scope : Scope} {segment : Segment} {index : Word} {code : Code}
    (hCode : popCode scope segment index = .ok code)
    (hStatic : segment = .static → known (scope.variableSymbol index) = false) :
    (Code.symbols code).filter (!known ·) =
      if segment = .static then [scope.variableSymbol index] else [] := by
  obtain ⟨place, hPlace, target, find, hTarget, rfl⟩ := popCode_eq_ok hCode
  cases hPlace with
  | literal => cases hTarget
  | named =>
    cases hTarget
    refine (newSymbols_storeDirect hFixed _).trans ?_
    simp [hStatic rfl]
  | based hBase hName =>
    cases hTarget
    have hKnown := hFixed _ (fixed_of_base _ hName)
    rw [if_neg (by rintro rfl; cases hBase)]
    simp [Target.store, popD, popRegister, hFixed "SP" (by decide), hFixed "R13" (by decide),
      hKnown]
  | slot hOther _ _ =>
    cases hTarget
    rw [if_neg hOther]
    exact newSymbols_storeDirect hFixed _

theorem newSymbols_functionCode (name : String) (locals : Word) :
    (Code.symbols (functionCode name locals)).filter (!known ·) = [] := by
  rw [functionCode, Code.symbols_label]
  induction locals.toNat with
  | zero => rfl
  | succ n ih =>
    rw [List.replicate_succ, List.flatten_cons, Code.symbols_append, List.filter_append, ih,
      pushNumber, Code.symbols_append, List.filter_append, newSymbols_pushD hFixed]
    rfl

theorem newSymbols_callCode {name back : String} (hName : known name = true)
    (hBack : known back = true) (arguments : Word) :
    (Code.symbols (callCode name arguments back)).filter (!known ·) = [] := by
  simp [callCode, savedRegisters, saveRegister, pushD, hName, hBack, hFixed "SP" (by decide),
    hFixed "LCL" (by decide), hFixed "ARG" (by decide), hFixed "THIS" (by decide),
    hFixed "THAT" (by decide)]

theorem newSymbols_returnCode : (Code.symbols returnCode).filter (!known ·) = [] := by
  simp [returnCode, restoreRegister, frameRegister, returnRegister, popD, hFixed "SP" (by decide),
    hFixed "LCL" (by decide), hFixed "ARG" (by decide), hFixed "THIS" (by decide),
    hFixed "THAT" (by decide), hFixed "R14" (by decide), hFixed "R15" (by decide)]

/-- **The only symbols that a command brings in** are those of static variables, if the symbols are
known that it jumps to and that its code declares. -/
theorem Site.newSymbols {site : Site}
    (hLabels : ∀ label ∈ Code.labels site.code, known label = true)
    (hTarget : ∀ symbol, site.target? = some symbol → known symbol = true)
    (hStatic : ∀ symbol, site.static? = some symbol → known symbol = false) :
    (Code.symbols site.code).filter (!known ·) = site.static?.toList := by
  obtain ⟨scope, command, address⟩ := site
  cases command with
  | push segment index =>
    have hVariable : segment = .static → known (scope.variableSymbol index) = false := by
      rintro rfl
      exact hStatic _ rfl
    rw [Site.toList_static_push, Site.code, Command.emitted, Command.code]
    cases hCode : pushCode scope segment index with
    | ok code => exact newSymbols_pushCode hFixed hCode hVariable
    | error fault =>
      rw [if_neg]
      · rfl
      · rintro rfl
        cases hCode
  | pop segment index =>
    have hVariable : segment = .static → known (scope.variableSymbol index) = false := by
      rintro rfl
      exact hStatic _ rfl
    rw [Site.toList_static_pop, Site.code, Command.emitted, Command.code]
    cases hCode : popCode scope segment index with
    | ok code => exact newSymbols_popCode hFixed hCode hVariable
    | error fault =>
      rw [if_neg]
      · rfl
      · rintro rfl
        cases hCode
  | unary op =>
    show (Code.symbols op.code).filter (!known ·) = []
    simp [UnaryOp.code, hFixed "SP" (by decide)]
  | binary op =>
    show (Code.symbols op.code).filter (!known ·) = []
    rw [BinaryOp.code, Code.symbols_append, List.filter_append, newSymbols_popD hFixed]
    rfl
  | compare op =>
    show (Code.symbols (op.code scope.trueSymbol scope.endSymbol)).filter (!known ·) = []
    have hTrue := hLabels scope.trueSymbol (List.mem_cons_self)
    have hEnd := hLabels scope.endSymbol (List.mem_cons_of_mem _ List.mem_cons_self)
    simp [Comparison.code, popD, hTrue, hEnd, hFixed "SP" (by decide)]
  | label name => rfl
  | goto name =>
    show (Code.symbols (gotoCode (scope.labelSymbol name))).filter (!known ·) = []
    simp [gotoCode, hTarget _ rfl]
  | ifGoto name =>
    show (Code.symbols (ifGotoCode (scope.labelSymbol name))).filter (!known ·) = []
    simp [ifGotoCode, popD, hTarget _ rfl, hFixed "SP" (by decide)]
  | function name locals => exact newSymbols_functionCode hFixed name locals
  | call name arguments =>
    exact newSymbols_callCode hFixed (hTarget _ rfl)
      (hLabels scope.returnSymbol List.mem_cons_self) arguments
  | ret => exact newSymbols_returnCode hFixed

end NewSymbols

/-! ### Static variables in a program -/

theorem newSymbols_prologue {known : String → Bool}
    (hFixed : ∀ name ∈ Image.fixedNames, known name = true) (options : Options) :
    (Code.symbols (prologue options)).filter (!known ·) = [] := by
  unfold prologue
  cases options.bootstrap <;> cases options.comments <;> simp [stackCode, hFixed "SP" (by decide)]

theorem newSymbols_inputsCode {known : String → Bool}
    (hFixed : ∀ name ∈ Image.fixedNames, known name = true) (comments : Bool)
    {inputs : List Input} : ∀ {scope : Scope} {address : Nat},
      (∀ site ∈ sitesFrom scope address inputs,
        (∀ label ∈ Code.labels site.code, known label = true) ∧
        (∀ symbol, site.target? = some symbol → known symbol = true) ∧
        ∀ symbol, site.static? = some symbol → known symbol = false) →
      (Code.symbols (inputsCode comments scope inputs)).filter (!known ·) =
        (sitesFrom scope address inputs).filterMap Site.static? := by
  induction inputs with
  | nil => intro scope address _; rfl
  | cons input rest ih =>
    intro scope address h
    rw [inputsCode, Code.symbols_append, List.filter_append]
    cases input with
    | file name => exact ih h
    | statement s =>
      obtain ⟨hLabels, hTarget, hStatic⟩ := h _ List.mem_cons_self
      have hHead := Site.newSymbols hFixed hLabels hTarget hStatic
      have hRest := ih fun site hSite => h site (List.mem_cons_of_mem _ hSite)
      have hComment : Code.symbols ((Input.statement s).code comments scope) =
          Code.symbols (s.command.emitted scope) :=
        Input.filterMap_code (fun _ => rfl) comments scope s
      rw [hComment, sitesFrom]
      refine (congrArg₂ (· ++ ·) hHead hRest).trans ?_
      rw [List.filterMap_cons]
      cases (Site.mk scope s.command address).static? <;> rfl

section Loaded

variable {options : Options} {parts : List Part} {image : Image}

/-- The variables of a program are its static variables, if it declares every symbol that it jumps
to and no static variable. -/
theorem unknown_symbols
    (hTargets : ∀ site ∈ sites options parts, ∀ symbol, site.target? = some symbol →
      symbol ∈ Code.labels (programCode options parts))
    (hStatics : ∀ site ∈ sites options parts, ∀ symbol, site.static? = some symbol →
      symbol ∉ Code.labels (programCode options parts)) :
    Image.variableSymbols (programCode options parts) = statics (sites options parts) := by
  have hFixed : ∀ name ∈ Image.fixedNames,
      decide (name ∈ Image.fixedNames ∨ name ∈ Code.labels (programCode options parts)) = true :=
    fun name hName => decide_eq_true (Or.inl hName)
  have hSymbols : Code.symbols (programCode options parts) = Code.symbols (prologue options) ++
      Code.symbols (inputsCode options.comments {} (programInputs options parts)) :=
    Code.symbols_append _ _
  rw [Image.variableSymbols, unknown, statics, hSymbols, List.filter_append,
    newSymbols_prologue hFixed, List.nil_append]
  congr 1
  apply newSymbols_inputsCode hFixed
  intro site h
  refine ⟨fun label hLabel => ?_, fun symbol hSymbol => ?_, fun symbol hSymbol => ?_⟩
  · exact decide_eq_true (Or.inr (labels_site_subset h hLabel))
  · exact decide_eq_true (Or.inr (hTargets site h symbol hSymbol))
  · apply decide_eq_false
    rintro (hName | hLabel)
    · exact Site.static_not_fixed hSymbol hName
    · exact hStatics site h symbol hSymbol hLabel

/-- **A static variable** lies where the reference interpreter has it. -/
theorem address_static (hLoad : Image.load (programCode options parts) = .ok image)
    (hTargets : ∀ site ∈ sites options parts, ∀ symbol, site.target? = some symbol →
      symbol ∈ Code.labels (programCode options parts))
    (hStatics : ∀ site ∈ sites options parts, ∀ symbol, site.static? = some symbol →
      symbol ∉ Code.labels (programCode options parts))
    {site : Site} (h : site ∈ sites options parts) {symbol : String}
    (hSymbol : site.static? = some symbol) :
    image.address symbol = staticCell (sites options parts) symbol := by
  refine Image.address_variable hLoad ?_
  rw [unknown_symbols hTargets hStatics]
  apply List.getElem?_idxOf
  rw [statics, List.mem_eraseDups]
  exact List.mem_filterMap.mpr ⟨site, h, hSymbol⟩

end Loaded

end HackVm
