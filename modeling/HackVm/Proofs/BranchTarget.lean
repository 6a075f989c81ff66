import HackVm.Proofs.Placement

/-!
# Where branches go

The symbol of a branch is that of a label in the function of the branch.  Dollar signs may stand in
the names of functions and labels, and code makes labels for itself, so other commands may declare
the same symbol (`Site.Captures`).  It takes a function with a dollar sign in its name, or a label
with the name of one that code makes for itself: without either, a branch goes to a label of its own
function or to no label at all (`branches_scoped`).
-/

namespace HackVm

/-- The label that a command jumps to within its function. -/
def Command.branch? : Command → Option String
  | goto name => some name
  | ifGoto name => some name
  | _ => none

/-- How a command other than the label meant may have the symbol of a branch. -/
inductive Site.Captures (site other : Site) (label : String) : Prop
  /-- It begins a function whose name is the whole symbol. -/
  | entry (locals : Word) : other.command = .function (site.scope.labelSymbol label) locals →
      Captures site other label
  /-- Its code makes the label for itself, in the function of the branch. -/
  | generated : other.scope.function = site.scope.function → label ∈ other.generated →
      Captures site other label
  /-- Its function has the function of the branch in front of a dollar sign. -/
  | inner (rest : String) : other.scope.function = site.scope.labelSymbol rest →
      Captures site other label
  /-- The function of the branch has its function in front of a dollar sign. -/
  | outer (rest : String) : site.scope.function = other.scope.labelSymbol rest →
      Captures site other label

namespace Site

variable {options : Options} {parts : List Part} {site other : Site} {label : String}

theorem branch_mem_symbols (h : site.command.branch? = some label) :
    site.scope.labelSymbol label ∈ Code.symbols site.code := by
  obtain ⟨scope, command, address⟩ := site
  cases command with
  | goto name =>
    cases h
    exact List.mem_cons_self
  | ifGoto name =>
    cases h
    exact List.mem_cons_of_mem _ List.mem_cons_self
  | _ => cases h

/-- **What has the symbol of a branch** is a label of its function, or captures it. -/
theorem label_or_captures
    (h : site.scope.labelSymbol label ∈ Code.labels other.code) :
    (other.command = .label label ∧ other.scope.function = site.scope.function) ∨
      site.Captures other label := by
  rw [labels_code, List.mem_append] at h
  rcases h with hDeclared | hGenerated
  · cases hCommand : other.command with
    | function name locals =>
      rw [declared?, hCommand] at hDeclared
      obtain rfl := List.mem_singleton.mp hDeclared
      exact Or.inr (.entry locals hCommand)
    | label name =>
      rw [declared?, hCommand] at hDeclared
      -- the two symbols are one text, which may be cut at different dollar signs
      rcases Scope.labelSymbol_cases (List.mem_singleton.mp hDeclared) with
        ⟨hFunction, rfl⟩ | ⟨rest, hInner, -⟩ | ⟨rest, hOuter, -⟩
      · exact Or.inl ⟨rfl, hFunction.symm⟩
      · exact Or.inr (.inner rest hInner)
      · exact Or.inr (.outer rest hOuter)
    | _ =>
      rw [declared?, hCommand] at hDeclared
      cases hDeclared
  · obtain ⟨name, hName, hSymbol⟩ := List.mem_map.mp hGenerated
    rcases Scope.labelSymbol_cases hSymbol with
      ⟨hFunction, rfl⟩ | ⟨rest, hOuter, -⟩ | ⟨rest, hInner, -⟩
    · exact Or.inr (.generated hFunction hName)
    · exact Or.inr (.outer rest hOuter)
    · exact Or.inr (.inner rest hInner)

theorem not_captures_of_label (hLabel : other.command = .label label)
    (hSame : other.scope.function = site.scope.function) : ¬ site.Captures other label := by
  intro h
  cases h with
  | entry locals hFunction =>
    rw [hLabel] at hFunction
    cases hFunction
  | generated _ hGenerated =>
    rw [generated, hLabel] at hGenerated
    cases hGenerated
  | inner rest hFunction =>
    exact site.scope.labelSymbol_ne_function rest (hFunction.symm.trans hSame)
  | outer rest hFunction =>
    exact other.scope.labelSymbol_ne_function rest (hFunction.symm.trans hSame.symm)

theorem no_dollar_function (hSite : site ∈ sites options parts)
    (hNames : ∀ other ∈ sites options parts, ∀ name locals,
      other.command = .function name locals → '$' ∉ name.toList) :
    '$' ∉ site.scope.function.toList := by
  rcases function_of_mem_sitesFrom hSite with hEntry | ⟨other, hOther, locals, hFunction⟩
  · rw [hEntry]
    decide
  · exact hNames other hOther _ locals hFunction

/-- Nothing captures a branch in a program whose functions have no dollar sign in their names, but
for labels that code makes for itself. -/
theorem Captures.generated_of_no_dollar (hSite : site ∈ sites options parts)
    (hOther : other ∈ sites options parts)
    (hNames : ∀ other ∈ sites options parts, ∀ name locals,
      other.command = .function name locals → '$' ∉ name.toList)
    (h : site.Captures other label) :
    other.scope.function = site.scope.function ∧ label ∈ other.generated := by
  cases h with
  | entry locals hFunction =>
    exact absurd (Scope.dollar_mem_labelSymbol _ _) (hNames other hOther _ locals hFunction)
  | generated hFunction hLabel => exact ⟨hFunction, hLabel⟩
  | inner rest hFunction =>
    exact absurd (hFunction ▸ Scope.dollar_mem_labelSymbol _ _) (no_dollar_function hOther hNames)
  | outer rest hFunction =>
    exact absurd (hFunction ▸ Scope.dollar_mem_labelSymbol _ _) (no_dollar_function hSite hNames)

end Site

/-- **A branch goes to a label of its own function**, unless its symbol is declared nowhere or the
one command that declares it captures the branch.  Where no function has a dollar sign in its name,
only a label that code makes for itself can capture a branch. -/
theorem branches_scoped {options : Options} {sources : List Source} {parts : List Part}
    {code : Code} (hRead : readSources sources = .ok parts)
    (hTranslate : translate options sources = .ok code) {site : Site}
    (hSite : site ∈ sites options parts) {label : String}
    (hBranch : site.command.branch? = some label) :
    site.scope.labelSymbol label ∈ Code.symbols site.code ∧
    (site.scope.labelSymbol label ∉ Code.labels code ∨
      ∃ other ∈ sites options parts, site.scope.labelSymbol label ∈ Code.labels other.code ∧
        (∀ third ∈ sites options parts,
          site.scope.labelSymbol label ∈ Code.labels third.code → third = other) ∧
        ((other.command = .label label ∧ other.scope.function = site.scope.function) ↔
          ¬ site.Captures other label)) ∧
    ((∀ other ∈ sites options parts, ∀ name locals, other.command = .function name locals →
        '$' ∉ name.toList) →
      (∀ other ∈ sites options parts, other.scope.function = site.scope.function →
        label ∉ other.generated) →
      ∀ other ∈ sites options parts, site.scope.labelSymbol label ∈ Code.labels other.code →
        other.command = .label label ∧ other.scope.function = site.scope.function) := by
  have hNodup := nodup_labels_of_translate hRead hTranslate
  obtain rfl := translate_eq_ok hRead hTranslate
  refine ⟨Site.branch_mem_symbols hBranch, ?_, ?_⟩
  · by_cases hLabel : site.scope.labelSymbol label ∈ Code.labels (programCode options parts)
    · obtain ⟨other, hOther, hDeclared⟩ := exists_site_of_label hLabel
      refine Or.inr ⟨other, hOther, hDeclared, ?_, ?_, ?_⟩
      · intro third hThird hThirdDeclared
        exact site_unique_of_label hNodup hThird hOther hThirdDeclared hDeclared
      · rintro ⟨hMeant, hSame⟩
        exact Site.not_captures_of_label hMeant hSame
      · exact (Site.label_or_captures hDeclared).resolve_right
    · exact Or.inl hLabel
  · intro hNames hGenerated other hOther hDeclared
    rcases Site.label_or_captures hDeclared with hMeant | hCaptures
    · exact hMeant
    · obtain ⟨hSame, hLabel⟩ := hCaptures.generated_of_no_dollar hSite hOther hNames
      exact absurd hLabel (hGenerated other hOther hSame)

/-- An endless loop goes to its own label. -/
theorem loop_goes_to_label :
    ∃ code, translate ⟨false, false⟩
        [.ofText "Main" "function Main.f 0\nlabel L\neq\ngoto L"] = .ok code ∧
      "Main.f$L" ∈ Code.labels code ∧
      ∃ parts, readSources [.ofText "Main" "function Main.f 0\nlabel L\neq\ngoto L"] = .ok parts ∧
        ∀ other ∈ sites ⟨false, false⟩ parts, "Main.f$L" ∈ Code.labels other.code →
          other.command = .label "L" ∧ other.scope.function = "Main.f" := by
  let parts : List Part := [⟨"Main", [⟨⟨"Main.vm", 1⟩, .function "Main.f" 0⟩,
    ⟨⟨"Main.vm", 2⟩, .label "L"⟩, ⟨⟨"Main.vm", 3⟩, .compare .eq⟩, ⟨⟨"Main.vm", 4⟩, .goto "L"⟩]⟩]
  have hRead : readSources [.ofText "Main" "function Main.f 0\nlabel L\neq\ngoto L"] =
      .ok parts := rfl
  have hNodup : (Code.labels (programCode ⟨false, false⟩ parts)).Nodup := by decide
  have hTranslate := translate_isOk hRead (by decide) hNodup
  let branch : Site := ⟨⟨"Main", "Main.f", 1, 0⟩, .goto "L", 14⟩
  have hBranch : branch ∈ sites ⟨false, false⟩ parts := by decide
  obtain ⟨-, -, hMeant⟩ := branches_scoped hRead hTranslate hBranch rfl
  refine ⟨_, hTranslate, by decide, parts, hRead, hMeant ?_ ?_⟩
  · intro other hOther name locals hFunction
    have hCommands : ∀ other ∈ sites ⟨false, false⟩ parts, other.command = .function "Main.f" 0 ∨
        other.command ∈ [.label "L", .compare .eq, .goto "L"] := by decide
    rcases hCommands other hOther with hFirst | hRest
    · rw [hFirst] at hFunction
      cases hFunction
      decide
    · rw [hFunction] at hRest
      simp at hRest
  · decide

end HackVm
