import HackVm.Proofs.Input
import HackVm.Proofs.Loading

/-!
# Where commands stand

Every command of a program has its code at an address of program memory (`Site`), and the code of
one command begins where that of the command before it ends.  `sites` lists the commands of a
program with their addresses; the call of the entry point is one of them if there is a bootstrap.

* `Code.at_site`: in an accepted program the code of every command stands at its address.
* `address_declared`: the symbol that a `label` or a `function` declares has its address.
* `next_mem_sitesFrom`: behind a command there is another one, or the end of the program.
-/

namespace HackVm

/-- A command of a program, and the address at which its code begins. -/
structure Site where
  scope : Scope
  command : Command
  address : Nat
  deriving DecidableEq, Repr

namespace Site

/-- The code of the command. -/
def code (site : Site) : Code :=
  site.command.emitted site.scope

/-- How many words of program memory the code takes. -/
def size (site : Site) : Nat :=
  Code.size site.code

/-- The address behind the code. -/
def next (site : Site) : Nat :=
  site.address + site.size

/-- The symbol under which other commands may jump here: that of a `label`, or the name of a
`function`. -/
def declared? (site : Site) : Option String :=
  match site.command with
  | .label name => some (site.scope.labelSymbol name)
  | .function name _ => some name
  | _ => none

/-- The symbol that the command jumps to. -/
def target? (site : Site) : Option String :=
  match site.command with
  | .goto name => some (site.scope.labelSymbol name)
  | .ifGoto name => some (site.scope.labelSymbol name)
  | .call name _ => some name
  | _ => none

/-- The symbol of the static variable that the command reads or writes. -/
def static? (site : Site) : Option String :=
  match site.command with
  | .push .static index => some (site.scope.variableSymbol index)
  | .pop .static index => some (site.scope.variableSymbol index)
  | _ => none

theorem declared?_of_label {site : Site} {name : String} (h : site.command = .label name) :
    site.declared? = some (site.scope.labelSymbol name) := by
  rw [declared?, h]

theorem declared?_of_function {site : Site} {name : String} {locals : Word}
    (h : site.command = .function name locals) : site.declared? = some name := by
  rw [declared?, h]

theorem code_ne_nil {site : Site} (h : 0 < site.size) : site.code ≠ [] := by
  intro hNil
  rw [size, hNil] at h
  exact Nat.lt_irrefl 0 h

end Site

/-- The commands of inputs, of which the first has its code at an address. -/
def sitesFrom (scope : Scope) (address : Nat) : List Input → List Site
  | [] => []
  | .file name :: rest => sitesFrom (scope.inFile name) address rest
  | .statement s :: rest =>
    let site : Site := ⟨scope, s.command, address⟩
    site :: sitesFrom (scope.after s.command) site.next rest

/-- The commands of a program, in order. -/
def sites (options : Options) (parts : List Part) : List Site :=
  sitesFrom {} (Code.size (prologue options)) (programInputs options parts)

/-! ### Sites in the code -/

/-- A comment takes no room. -/
theorem Input.size_code (comments : Bool) (scope : Scope) (s : Statement) :
    Code.size ((Input.statement s).code comments scope) =
      Code.size (s.command.emitted scope) := by
  rw [Input.code, Code.size_append]
  cases comments <;> simp [Code.size, Instruction.isExecutable]

/-- The code before a command is that of the commands before it, but for comments. -/
theorem code_eq_of_sitesFrom_eq {comments : Bool} {site : Site} {back : List Site}
    {inputs : List Input} : ∀ {front : List Site} {scope : Scope} {address : Nat},
      sitesFrom scope address inputs = front ++ site :: back →
        ∃ before behind, inputsCode comments scope inputs = before ++ site.code ++ behind ∧
          site.address = address + Code.size before ∧
          ∀ {β : Type} {f : Instruction → Option β}, (∀ text, f (.comment text) = none) →
            before.filterMap f = front.flatMap fun other => other.code.filterMap f := by
  induction inputs with
  | nil => intro front scope address h; simp [sitesFrom] at h
  | cons input rest ih =>
    intro front scope address h
    rw [inputsCode]
    cases input with
    | file name => exact ih h
    | statement s =>
      cases front with
      | nil =>
        obtain ⟨rfl, -⟩ := List.cons.inj h
        refine ⟨if comments then [.comment s.command.text] else [],
          inputsCode comments (scope.after s.command) rest, rfl, ?_, fun hf => ?_⟩
        · cases comments <;> rfl
        · cases comments
          · rfl
          · exact List.filterMap_cons_none (hf _)
      | cons first front =>
        obtain ⟨rfl, hRest⟩ := List.cons.inj h
        obtain ⟨before, behind, hCode, hAddress, hBefore⟩ := ih hRest
        refine ⟨(Input.statement s).code comments scope ++ before, behind, ?_, ?_, fun hf => ?_⟩
        · rw [Input.after, hCode]
          simp only [List.append_assoc]
        · rw [hAddress, Code.size_append, Input.size_code, Site.next, Site.size, Site.code,
            Nat.add_assoc]
        · rw [List.filterMap_append, Input.filterMap_code hf, hBefore hf, List.flatMap_cons]
          rfl

theorem programCode_eq_of_sites_eq {options : Options} {parts : List Part} {site : Site}
    {front back : List Site} (h : sites options parts = front ++ site :: back) :
    ∃ before behind, programCode options parts = before ++ site.code ++ behind ∧
      site.address = Code.size before ∧
      ∀ {β : Type} {f : Instruction → Option β}, (∀ text, f (.comment text) = none) →
        before.filterMap f = (prologue options).filterMap f ++
          front.flatMap fun other => other.code.filterMap f := by
  obtain ⟨before, behind, hCode, hAddress, hBefore⟩ :=
    @code_eq_of_sitesFrom_eq options.comments _ _ _ _ _ _ h
  refine ⟨prologue options ++ before, behind, ?_, ?_, fun hf => ?_⟩
  · rw [programCode, hCode]
    simp only [List.append_assoc]
  · rw [hAddress, Code.size_append]
  · rw [List.filterMap_append, hBefore hf]

/-- **The code of every command stands at its address.** -/
theorem Code.at_site {options : Options} {parts : List Part} {site : Site}
    (h : site ∈ sites options parts) :
    Code.At (programCode options parts) site.address site.code := by
  obtain ⟨front, back, hSites⟩ := List.append_of_mem h
  obtain ⟨before, behind, hCode, hAddress, -⟩ := programCode_eq_of_sites_eq hSites
  exact ⟨before, behind, hCode, hAddress⟩

theorem labels_site_subset {options : Options} {parts : List Part} {site : Site}
    (h : site ∈ sites options parts) {label : String} (hLabel : label ∈ Code.labels site.code) :
    label ∈ Code.labels (programCode options parts) := by
  obtain ⟨before, behind, hCode, -⟩ := Code.at_site h
  rw [hCode, Code.labels_append, Code.labels_append]
  simp [hLabel]

theorem symbols_site_subset {options : Options} {parts : List Part} {site : Site}
    (h : site ∈ sites options parts) {name : String} (hName : name ∈ Code.symbols site.code) :
    name ∈ Code.symbols (programCode options parts) := by
  obtain ⟨before, behind, hCode, -⟩ := Code.at_site h
  rw [Code.symbols, hCode, List.filterMap_append, List.filterMap_append]
  exact List.mem_append_left _ (List.mem_append_right _ hName)

theorem Site.code_of_declared {site : Site} {symbol : String}
    (h : site.declared? = some symbol) : ∃ rest, site.code = .label symbol :: rest := by
  obtain ⟨scope, command, address⟩ := site
  cases command with
  | label name => cases h; exact ⟨[], rfl⟩
  | function name locals =>
    cases h
    exact ⟨(List.replicate locals.toNat (pushNumber 0)).flatten, rfl⟩
  | _ => cases h

/-- **The symbol of a `label` or a `function`** stands for the address of the command. -/
theorem address_declared {options : Options} {parts : List Part} {image : Image}
    (hLoad : Image.load (programCode options parts) = .ok image) {site : Site}
    (h : site ∈ sites options parts) {symbol : String} (hSymbol : site.declared? = some symbol) :
    (image.address symbol).toNat = site.address := by
  obtain ⟨rest, hCode⟩ := Site.code_of_declared hSymbol
  have hAt := Code.at_site h
  rw [hCode] at hAt
  exact Image.address_label hLoad hAt

/-! ### From one command to the next -/

/-- Inputs without a command have no code; otherwise the first command stands where they begin. -/
theorem head_sitesFrom (comments : Bool) (scope : Scope) (address : Nat) (inputs : List Input) :
    address = address + Code.size (inputsCode comments scope inputs) ∨
      ∃ site ∈ sitesFrom scope address inputs, site.address = address := by
  induction inputs generalizing scope with
  | nil => exact Or.inl rfl
  | cons input rest ih =>
    cases input with
    | file name => exact ih (scope.inFile name)
    | statement s => exact Or.inr ⟨⟨scope, s.command, address⟩, List.mem_cons_self, rfl⟩

/-- Behind the code of a command stands another command, or the program ends there. -/
theorem next_mem_sitesFrom {comments : Bool} {site : Site} {inputs : List Input} :
    ∀ {scope : Scope} {address : Nat}, site ∈ sitesFrom scope address inputs →
      site.next = address + Code.size (inputsCode comments scope inputs) ∨
        ∃ other ∈ sitesFrom scope address inputs, other.address = site.next := by
  induction inputs with
  | nil => intro scope address h; cases h
  | cons input rest ih =>
    intro scope address h
    rw [inputsCode, Code.size_append]
    cases input with
    | file name =>
      rw [Input.code, Code.size, List.countP_nil, Nat.zero_add]
      exact ih h
    | statement s =>
      rw [Input.size_code, ← Nat.add_assoc]
      rcases List.mem_cons.mp h with rfl | hRest
      · rcases head_sitesFrom comments (scope.after s.command)
          (address + Code.size (s.command.emitted scope)) rest with hEnd | ⟨other, hMem, hAddress⟩
        · exact Or.inl hEnd
        · exact Or.inr ⟨other, List.mem_cons_of_mem _ hMem, hAddress⟩
      · rcases ih hRest with hEnd | ⟨other, hMem, hAddress⟩
        · exact Or.inl hEnd
        · exact Or.inr ⟨other, List.mem_cons_of_mem _ hMem, hAddress⟩

/-- Where no command with code stands at an address, the program ends there. -/
theorem eq_end_of_no_code {comments : Bool} {pc : Nat} {inputs : List Input} :
    ∀ {scope : Scope} {address : Nat},
      (∀ site ∈ sitesFrom scope address inputs, site.address = pc → site.size = 0) →
      (pc = address ∨ ∃ site ∈ sitesFrom scope address inputs, site.address = pc) →
      pc = address + Code.size (inputsCode comments scope inputs) := by
  induction inputs with
  | nil =>
    rintro scope address - (rfl | ⟨site, h, -⟩)
    · rfl
    · cases h
  | cons input rest ih =>
    intro scope address hNone hSome
    rw [inputsCode, Code.size_append]
    cases input with
    | file name =>
      rw [Input.code, Code.size, List.countP_nil, Nat.zero_add]
      exact ih hNone hSome
    | statement s =>
      rw [Input.size_code, ← Nat.add_assoc]
      refine ih (fun site h => hNone site (List.mem_cons_of_mem _ h)) ?_
      have hHead : address = pc → Code.size (s.command.emitted scope) = 0 :=
        hNone ⟨scope, s.command, address⟩ List.mem_cons_self
      rcases hSome with rfl | ⟨site, h, hAddress⟩
      · exact Or.inl (by rw [hHead rfl, Nat.add_zero])
      · rcases List.mem_cons.mp h with rfl | h
        · exact Or.inl (by rw [hHead hAddress, ← hAddress, Nat.add_zero])
        · exact Or.inr ⟨site, h, hAddress⟩

/-! ### The order of sites -/

theorem le_address_of_mem_sitesFrom {site : Site} {inputs : List Input} :
    ∀ {scope : Scope} {address : Nat}, site ∈ sitesFrom scope address inputs →
      address ≤ site.address := by
  induction inputs with
  | nil => intro scope address h; cases h
  | cons input rest ih =>
    intro scope address h
    cases input with
    | file name => exact ih h
    | statement s =>
      rcases List.mem_cons.mp h with rfl | h
      · exact Nat.le_refl _
      · exact Nat.le_trans (Nat.le_add_right _ _) (ih h)

theorem pairwise_sitesFrom {inputs : List Input} : ∀ {scope : Scope} {address : Nat},
    (sitesFrom scope address inputs).Pairwise fun site other => site.next ≤ other.address := by
  induction inputs with
  | nil => intro scope address; exact List.Pairwise.nil
  | cons input rest ih =>
    intro scope address
    cases input with
    | file name => exact ih
    | statement s => exact List.Pairwise.cons (fun _ h => le_address_of_mem_sitesFrom h) ih

/-- **No two commands with code** stand at the same address. -/
theorem site_unique {options : Options} {parts : List Part} {site other : Site}
    (h : site ∈ sites options parts) (hOther : other ∈ sites options parts)
    (hSize : 0 < site.size) (hOtherSize : 0 < other.size)
    (hAddress : site.address = other.address) :
    site = other := by
  have hOrder := List.Pairwise.forall_of_forall_of_flip
    (R := fun a b : Site => a = b ∨ a.next ≤ b.address ∨ b.next ≤ a.address)
    (fun _ _ => Or.inl rfl)
    (pairwise_sitesFrom.imp fun hLe => Or.inr (Or.inl hLe))
    (pairwise_sitesFrom.imp fun hLe => Or.inr (Or.inr hLe)) h hOther
  rcases hOrder with hEq | hLe | hLe
  · exact hEq
  · rw [Site.next] at hLe
    omega
  · rw [Site.next] at hLe
    omega

end HackVm
