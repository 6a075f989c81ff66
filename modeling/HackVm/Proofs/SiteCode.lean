import HackVm.Proofs.CommandCode
import HackVm.Proofs.DistinctLabels
import HackVm.Proofs.Site
import HackVm.Proofs.SymbolName

/-!
# The code of a program, command by command

But for its prologue and the comments, the code of a program is the code of its commands laid end to
end.  So what can be told of code instruction by instruction, without the comments, can be told of a
program command by command (`filterMap_inputsCode`).

* `labels_programCode`, `ops_programCode`: the labels of a program, and its loaded instructions.
* `Site.labels_code`: the labels of one command are its own symbol and those that its code makes for
  itself, which belong to the function of the command.
* `site_unique_of_label`: in an accepted program a label tells the command that declares it.
* `files_sites`: the commands of a program are those of its files, in order.
-/

namespace HackVm

open Instruction

/-! ### Code without comments -/

/-- **Comments aside, the code of inputs is the code of their commands**, one after the other. -/
theorem filterMap_inputsCode {β : Type} {f : Instruction → Option β}
    (hf : ∀ text, f (.comment text) = none) (comments : Bool) {inputs : List Input} :
    ∀ {scope : Scope} {address : Nat},
      (inputsCode comments scope inputs).filterMap f =
        (sitesFrom scope address inputs).flatMap fun site => site.code.filterMap f := by
  induction inputs with
  | nil => intro scope address; rfl
  | cons input rest ih =>
    intro scope address
    rw [inputsCode, List.filterMap_append]
    cases input with
    | file name => exact ih
    | statement s =>
      rw [Input.filterMap_code hf, sitesFrom, List.flatMap_cons]
      exact congrArg (_ ++ ·) ih

theorem labels_prologue (options : Options) : Code.labels (prologue options) = [] := by
  rcases options with ⟨_ | _, _ | _⟩ <;> rfl

theorem labels_programCode (options : Options) (parts : List Part) :
    Code.labels (programCode options parts) =
      (sites options parts).flatMap fun site => Code.labels site.code := by
  rw [programCode, Code.labels_append, labels_prologue, List.nil_append]
  exact filterMap_inputsCode (fun _ => rfl) options.comments

theorem ops_programCode (options : Options) (parts : List Part) (address : String → Word) :
    Code.ops address (programCode options parts) = Code.ops address (prologue options) ++
      (sites options parts).flatMap fun site => Code.ops address site.code := by
  rw [programCode, Code.ops_append]
  exact congrArg (_ ++ ·) (filterMap_inputsCode (fun _ => rfl) options.comments)

/-- The commands of inputs that misuse no segment leave the code that they are translated to. -/
theorem code_eq_ok_of_mem_sitesFrom {site : Site} {inputs : List Input} :
    ∀ {scope : Scope} {address : Nat}, inputsOk scope inputs = true →
      site ∈ sitesFrom scope address inputs →
        ∃ next, site.command.code site.scope = .ok (site.code, next) := by
  induction inputs with
  | nil => intro scope address _ h; cases h
  | cons input rest ih =>
    intro scope address hOk h
    cases input with
    | file name => exact ih hOk h
    | statement s =>
      rw [inputsOk, Bool.and_eq_true] at hOk
      rcases List.mem_cons.mp h with rfl | hRest
      · cases hCode : s.command.code scope with
        | ok pair =>
          rw [Site.code, Command.emitted_of_ok hCode]
          exact ⟨pair.2, rfl⟩
        | error fault =>
          rw [hCode] at hOk
          cases hOk.1
      · exact ih hOk.2 hRest

/-! ### The labels of a command -/

theorem labels_pushCode {scope : Scope} {segment : Segment} {index : Word} {code : Code}
    (h : pushCode scope segment index = .ok code) : Code.labels code = [] := by
  obtain ⟨place, -, rfl⟩ := pushCode_eq_ok h
  rw [Code.labels_append]
  cases place <;> rfl

theorem labels_popCode {scope : Scope} {segment : Segment} {index : Word} {code : Code}
    (h : popCode scope segment index = .ok code) : Code.labels code = [] := by
  obtain ⟨place, -, target, find, hTarget, rfl⟩ := popCode_eq_ok h
  rw [Code.labels_append]
  cases place <;> cases hTarget <;> rfl

theorem labels_functionCode (name : String) (locals : Word) :
    Code.labels (functionCode name locals) = [name] := by
  have hLocals : Code.labels (List.replicate locals.toNat (pushNumber 0)).flatten = [] := by
    induction locals.toNat with
    | zero => rfl
    | succ n ih =>
      rw [List.replicate_succ, List.flatten_cons, Code.labels_append, ih]
      rfl
  rw [functionCode]
  exact congrArg (name :: ·) hLocals

namespace Site

/-- The labels that the code of the command makes for itself, as names within its function. -/
def generated (site : Site) : List String :=
  match site.command with
  | .compare _ =>
    ["cmp.true." ++ site.scope.comparisons.repr, "cmp.end." ++ site.scope.comparisons.repr]
  | .call _ _ => ["ret." ++ site.scope.calls.repr]
  | _ => []

/-- **The labels of a command** are its own symbol and those that its code makes for itself. -/
theorem labels_code (site : Site) :
    Code.labels site.code =
      site.declared?.toList ++ site.generated.map site.scope.labelSymbol := by
  obtain ⟨scope, command, address⟩ := site
  cases command with
  | push segment index =>
    rw [code, Command.emitted, Command.code]
    cases hCode : pushCode scope segment index with
    | ok code => exact labels_pushCode hCode
    | error fault => rfl
  | pop segment index =>
    rw [code, Command.emitted, Command.code]
    cases hCode : popCode scope segment index with
    | ok code => exact labels_popCode hCode
    | error fault => rfl
  | function name locals => exact labels_functionCode name locals
  | _ => rfl

/-- A label without a dollar sign is the name of a function. -/
theorem function_or_dollar {site : Site} {label : String} (h : label ∈ Code.labels site.code) :
    (∃ locals, site.command = .function label locals) ∨ '$' ∈ label.toList := by
  rw [labels_code, List.mem_append] at h
  rcases h with hDeclared | hGenerated
  · obtain ⟨scope, command, address⟩ := site
    cases command with
    | function name locals =>
      obtain rfl := List.mem_singleton.mp hDeclared
      exact Or.inl ⟨locals, rfl⟩
    | label name =>
      obtain rfl := List.mem_singleton.mp hDeclared
      exact Or.inr (scope.dollar_mem_labelSymbol name)
    | _ => cases hDeclared
  · obtain ⟨name, -, rfl⟩ := List.mem_map.mp hGenerated
    exact Or.inr (site.scope.dollar_mem_labelSymbol name)

end Site

section Program

variable {options : Options} {parts : List Part}

theorem exists_site_of_label {label : String}
    (h : label ∈ Code.labels (programCode options parts)) :
    ∃ site ∈ sites options parts, label ∈ Code.labels site.code := by
  rw [labels_programCode] at h
  exact List.mem_flatMap.mp h

/-- **A label tells the command that declares it**, if no label is declared twice. -/
theorem site_unique_of_label (hNodup : (Code.labels (programCode options parts)).Nodup)
    {site other : Site} (h : site ∈ sites options parts) (hOther : other ∈ sites options parts)
    {label : String} (hLabel : label ∈ Code.labels site.code)
    (hOtherLabel : label ∈ Code.labels other.code) : site = other := by
  rw [labels_programCode, List.nodup_flatMap] at hNodup
  -- commands at different places have no label in common, in either order
  have hDisjoint : ∀ a ∈ sites options parts, ∀ b ∈ sites options parts,
      a = b ∨ List.Disjoint (Code.labels a.code) (Code.labels b.code) := by
    intro a ha b hb
    exact List.Pairwise.forall_of_forall_of_flip (R := fun a b : Site =>
      a = b ∨ List.Disjoint (Code.labels a.code) (Code.labels b.code)) (fun _ _ => Or.inl rfl)
      (hNodup.2.imp Or.inr)
      (hNodup.2.imp fun hDisjoint => Or.inr fun _ hb ha => hDisjoint ha hb) ha hb
  rcases hDisjoint site h other hOther with hEq | hDisjoint
  · exact hEq
  · exact absurd hOtherLabel (hDisjoint hLabel)

end Program

/-- A command that declares a symbol begins with it, behind the labels of the commands before. -/
theorem cut_of_declared {options : Options} {parts : List Part} {front back : List Site}
    {site : Site} (hSites : sites options parts = front ++ site :: back) {symbol : String}
    (hSymbol : site.declared? = some symbol) :
    ∃ before behind, programCode options parts = before ++ .label symbol :: behind ∧
      site.address = Code.size before ∧
      Code.labels before = front.flatMap fun other => Code.labels other.code := by
  obtain ⟨before, behind, hCode, hAddress, hBefore⟩ := programCode_eq_of_sites_eq hSites
  obtain ⟨rest, hSite⟩ := Site.code_of_declared hSymbol
  refine ⟨before, rest ++ behind, ?_, hAddress, ?_⟩
  · rw [hCode, hSite, List.append_assoc, List.cons_append]
  · have hLabels : Code.labels before = Code.labels (prologue options) ++ _ :=
      hBefore fun _ => rfl
    rw [hLabels, labels_prologue, List.nil_append]
    rfl

/-! ### The commands of the files -/

theorem Scope.file_after (scope : Scope) (command : Command) :
    (scope.after command).file = scope.file := by
  cases command with
  | push segment index =>
    rw [after, Command.code]
    cases pushCode scope segment index <;> rfl
  | pop segment index =>
    rw [after, Command.code]
    cases popCode scope segment index <;> rfl
  | _ => rfl

theorem Scope.function_after (scope : Scope) (command : Command) :
    (scope.after command).function = scope.function ∨
      ∃ locals, command = .function (scope.after command).function locals := by
  cases command with
  | push segment index =>
    rw [after, Command.code]
    cases pushCode scope segment index <;> exact Or.inl rfl
  | pop segment index =>
    rw [after, Command.code]
    cases popCode scope segment index <;> exact Or.inl rfl
  | function name locals => exact Or.inr ⟨locals, rfl⟩
  | _ => exact Or.inl rfl

/-- A command stands in the function that was begun last. -/
theorem function_of_mem_sitesFrom {site : Site} {inputs : List Input} :
    ∀ {scope : Scope} {address : Nat}, site ∈ sitesFrom scope address inputs →
      site.scope.function = scope.function ∨
        ∃ other ∈ sitesFrom scope address inputs,
          ∃ locals, other.command = .function site.scope.function locals := by
  induction inputs with
  | nil => intro scope address h; cases h
  | cons input rest ih =>
    intro scope address h
    cases input with
    | file name => exact ih h
    | statement s =>
      rcases List.mem_cons.mp h with rfl | hRest
      · exact Or.inl rfl
      · rcases ih hRest with hSame | ⟨other, hOther, hFunction⟩
        · rcases scope.function_after s.command with hAfter | ⟨locals, hFunction⟩
          · exact Or.inl (hSame.trans hAfter)
          · exact Or.inr ⟨_, List.mem_cons_self, locals, hSame ▸ hFunction⟩
        · exact Or.inr ⟨other, List.mem_cons_of_mem _ hOther, hFunction⟩

/-- The commands among inputs, each with the file it belongs to. -/
def inputCommands (file : String) : List Input → List (String × Command)
  | [] => []
  | .file name :: rest => inputCommands name rest
  | .statement s :: rest => (file, s.command) :: inputCommands file rest

theorem inputCommands_statements (file : String) (statements : List Statement)
    (rest : List Input) :
    inputCommands file (statements.map .statement ++ rest) =
      statements.map (fun s => (file, s.command)) ++ inputCommands file rest := by
  induction statements with
  | nil => rfl
  | cons s statements ih => exact congrArg (_ :: ·) ih

theorem inputCommands_inputs (parts : List Part) : ∀ file : String,
    inputCommands file (inputs parts) =
      parts.flatMap fun part => part.statements.map fun s => (part.name, s.command) := by
  induction parts with
  | nil => intro file; rfl
  | cons part parts ih =>
    intro file
    rw [inputs, List.flatMap_cons, List.cons_append, inputCommands, inputCommands_statements,
      List.flatMap_cons]
    exact congrArg (_ ++ ·) (ih part.name)

theorem files_sitesFrom {inputs : List Input} : ∀ {scope : Scope} {address : Nat},
    (sitesFrom scope address inputs).map (fun site => (site.scope.file, site.command)) =
      inputCommands scope.file inputs := by
  induction inputs with
  | nil => intro scope address; rfl
  | cons input rest ih =>
    intro scope address
    cases input with
    | file name => exact ih
    | statement s =>
      have hRest := @ih (scope.after s.command) (Site.mk scope s.command address).next
      rw [Scope.file_after] at hRest
      exact congrArg (_ :: ·) hRest

/-- **The commands of a program** are those of its files, in order and behind the call of the entry
point if there is one. -/
theorem files_sites (options : Options) (parts : List Part) :
    (sites options parts).map (fun site => (site.scope.file, site.command)) =
      (if options.bootstrap then [("", .call entryPoint 0)] else []) ++
        parts.flatMap fun part => part.statements.map fun s => (part.name, s.command) := by
  rw [sites, files_sitesFrom, programInputs, ← inputCommands_inputs parts ""]
  cases options.bootstrap <;> rfl

theorem exists_site_of_statement (options : Options) {parts : List Part} {part : Part}
    (hPart : part ∈ parts) {s : Statement} (hs : s ∈ part.statements) :
    ∃ site ∈ sites options parts, site.scope.file = part.name ∧ site.command = s.command := by
  have hMem : (part.name, s.command) ∈
      (sites options parts).map fun site => (site.scope.file, site.command) := by
    rw [files_sites]
    exact List.mem_append_right _
      (List.mem_flatMap.mpr ⟨part, hPart, List.mem_map.mpr ⟨s, hs, rfl⟩⟩)
  obtain ⟨site, hSite, hEq⟩ := List.mem_map.mp hMem
  exact ⟨site, hSite, (Prod.mk.inj hEq).1, (Prod.mk.inj hEq).2⟩

end HackVm
