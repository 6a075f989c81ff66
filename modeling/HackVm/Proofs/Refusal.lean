import HackVm.Proofs.Running
import HackVm.Proofs.SiteCode

/-!
# Which accepted programs the loader refuses

Translation makes sure that no label is declared twice.  The loader asks for more: a label must not
be a fixed symbol either.  Fixed symbols have no dollar sign in them, so the only labels that can be
fixed are the names of functions, and a program is refused for a label exactly if one of its
functions has such a name and the code before it fits (`refused_iff_fixed_function`).

* `placeLabels_eq_labelTaken`: the first pass stops at the first label that is in its table.
* `Image.load_eq_labelTaken`: only the first pass refuses a program for a label.
-/

namespace HackVm

/-! ### The faults of the two passes -/

section Passes

variable {table : SymbolTable} {count : Nat} {code : Code}

theorem placeLabels_free {final : SymbolTable} (h : placeLabels table count code = .ok final) :
    ∀ name ∈ Code.labels code, name ∉ table := by
  intro name hName hTable
  obtain ⟨before, behind, rfl⟩ := Code.exists_label hName
  obtain ⟨middle, hBefore, hRest⟩ := placeLabels_append_eq_ok.mp h
  have hMiddle : middle.contains name = true :=
    Std.HashMap.mem_iff_contains.mp ((mem_placeLabels hBefore name).mpr (Or.inl hTable))
  rw [placeLabels, if_pos hMiddle] at hRest
  cases hRest

/-- **The first pass stops at the first label that is in its table**, if there is room for the code
before it. -/
theorem placeLabels_eq_labelTaken {label : String} :
    placeLabels table count code = .error (.labelTaken label) ↔
      ∃ before behind middle, code = before ++ .label label :: behind ∧
        placeLabels table count before = .ok middle ∧ label ∈ middle := by
  constructor
  · intro h
    fun_induction placeLabels table count code with
    | case1 table count => cases h
    | case2 table count name rest hTaken =>
      cases h
      exact ⟨[], rest, table, rfl, rfl, Std.HashMap.mem_iff_contains.mpr hTaken⟩
    | case3 table count name rest hFree ih =>
      obtain ⟨before, behind, middle, rfl, hBefore, hMem⟩ := ih h
      exact ⟨.label name :: before, behind, middle, rfl, by rw [placeLabels, if_neg hFree, hBefore],
        hMem⟩
    | case4 table count text rest ih =>
      obtain ⟨before, behind, middle, rfl, hBefore, hMem⟩ := ih h
      exact ⟨.comment text :: before, behind, middle, rfl, hBefore, hMem⟩
    | case5 table count address rest hRoom ih =>
      obtain ⟨before, behind, middle, rfl, hBefore, hMem⟩ := ih h
      exact ⟨.load address :: before, behind, middle, rfl,
        by rw [placeLabels, if_pos hRoom, hBefore], hMem⟩
    | case6 table count address rest hFull => cases h
    | case7 table count dest comp jump rest hRoom ih =>
      obtain ⟨before, behind, middle, rfl, hBefore, hMem⟩ := ih h
      exact ⟨.compute dest comp jump :: before, behind, middle, rfl,
        by rw [placeLabels, if_pos hRoom, hBefore], hMem⟩
    | case8 table count dest comp jump rest hFull => cases h
  · rintro ⟨before, behind, middle, rfl, hBefore, hMem⟩
    rw [placeLabels_append, hBefore]
    show placeLabels middle _ (.label label :: behind) = _
    rw [placeLabels, if_pos (Std.HashMap.mem_iff_contains.mp hMem)]

/-- The second pass can only run out of memory for variables. -/
theorem resolve_eq_error {next : Nat} {rom : Array Op} {fault : LoadFault}
    (h : resolve table next rom code = .error fault) : ∃ symbol, fault = .noMemoryFor symbol := by
  fun_induction resolve table next rom code with
  | case1 table next rom => cases h
  | case2 table next rom value rest ih => exact ih h
  | case3 table next rom symbol rest found hFound ih => exact ih h
  | case4 table next rom symbol rest hNew hRoom fresh ih => exact ih h
  | case5 table next rom symbol rest hNew hFull => cases h; exact ⟨symbol, rfl⟩
  | case6 table next rom dest comp jump rest ih => exact ih h
  | case7 table next rom label rest ih => exact ih h
  | case8 table next rom text rest ih => exact ih h

end Passes

theorem Image.load_eq_labelTaken {program : Code} {label : String} :
    Image.load program = .error (.labelTaken label) ↔
      placeLabels (Std.HashMap.ofList fixedSymbols) 0 program = .error (.labelTaken label) := by
  rw [Image.load]
  cases hTable : placeLabels (Std.HashMap.ofList fixedSymbols) 0 program with
  | error fault => simp [bind, Except.bind]
  | ok table =>
    simp only [reduceCtorEq, iff_false]
    intro h
    obtain ⟨symbol, hFault⟩ := resolve_eq_error h
    cases hFault

theorem Machine.load_eq_error {program : Code} {fault : LoadFault} :
    Machine.load program = .error fault ↔ Image.load program = .error fault := by
  rw [Machine.load]
  cases Image.load program <;> simp [bind, Except.bind, pure, Except.pure]

/-! ### Labels that are fixed symbols -/

theorem Site.function_of_fixed {site : Site} {label : String}
    (h : label ∈ Code.labels site.code) (hFixed : label ∈ Image.fixedNames) :
    ∃ locals, site.command = .function label locals := by
  rcases Site.function_or_dollar h with hFunction | hDollar
  · exact hFunction
  · exact absurd hDollar (Image.dollar_not_mem_fixed label hFixed)

/-- The label is the name of a function and a fixed symbol, it is the first such name of the program,
and the code before the function fits. -/
def FirstFixed (options : Options) (parts : List Part) (label : String) : Prop :=
  ∃ front site back locals, sites options parts = front ++ site :: back ∧
    site.command = .function label locals ∧ label ∈ Image.fixedNames ∧ site.address ≤ romSize ∧
    ∀ other ∈ front, ∀ name locals, other.command = .function name locals →
      name ∉ Image.fixedNames

section Program

variable {options : Options} {parts : List Part}
  (hNodup : (Code.labels (programCode options parts)).Nodup) {label : String}

include hNodup

theorem load_refuses_firstFixed (h : FirstFixed options parts label) :
    Image.load (programCode options parts) = .error (.labelTaken label) := by
  obtain ⟨front, site, back, locals, hSites, hFunction, hFixed, hRoom, hFirst⟩ := h
  obtain ⟨before, behind, hCode, hAddress, hLabels⟩ :=
    cut_of_declared hSites (Site.declared?_of_function hFunction)
  have hBeforeNodup : (Code.labels before).Nodup := by
    rw [hCode, Code.labels_append] at hNodup
    exact (List.nodup_append.mp hNodup).1
  have hFree : ∀ name ∈ Code.labels before,
      name ∉ (Std.HashMap.ofList fixedSymbols : SymbolTable) := by
    intro name hName hTable
    have hNameFixed := (Image.mem_fixedTable name).mp hTable
    rw [hLabels] at hName
    obtain ⟨other, hOther, hMem⟩ := List.mem_flatMap.mp hName
    obtain ⟨_, hCommand⟩ := Site.function_of_fixed hMem hNameFixed
    exact hFirst other hOther name _ hCommand hNameFixed
  have hSize : 0 + Code.size before ≤ romSize := by
    rw [Nat.zero_add, ← hAddress]
    exact hRoom
  obtain ⟨middle, hMiddle⟩ := placeLabels_isOk hBeforeNodup hFree hSize
  have hTaken : label ∈ middle :=
    (mem_placeLabels hMiddle label).mpr (Or.inl ((Image.mem_fixedTable label).mpr hFixed))
  exact Image.load_eq_labelTaken.mpr
    (placeLabels_eq_labelTaken.mpr ⟨before, behind, middle, hCode, hMiddle, hTaken⟩)

theorem firstFixed_of_load_refuses
    (h : Image.load (programCode options parts) = .error (.labelTaken label)) :
    FirstFixed options parts label := by
  obtain ⟨before, behind, middle, hCode, hMiddle, hMem⟩ :=
    placeLabels_eq_labelTaken.mp (Image.load_eq_labelTaken.mp h)
  have hLabels : Code.labels (programCode options parts) =
      Code.labels before ++ label :: Code.labels behind := by
    rw [hCode]
    exact Code.labels_append _ _
  have hDeclared : label ∈ Code.labels (programCode options parts) := by
    rw [hLabels]
    exact List.mem_append_right _ List.mem_cons_self
  -- the label is not one of those before it, so the table has it as a fixed symbol
  have hFixed : label ∈ Image.fixedNames := by
    rcases (mem_placeLabels hMiddle label).mp hMem with hTable | hBefore
    · exact (Image.mem_fixedTable label).mp hTable
    · rw [hLabels] at hNodup
      exact absurd rfl
        ((List.nodup_append.mp hNodup).2.2 label hBefore label List.mem_cons_self)
  obtain ⟨site, hSite, hLabel⟩ := exists_site_of_label hDeclared
  obtain ⟨locals, hFunction⟩ := Site.function_of_fixed hLabel hFixed
  obtain ⟨front, back, hSites⟩ := List.append_of_mem hSite
  obtain ⟨start, rest, hProgram, hAddress, hStart⟩ :=
    cut_of_declared hSites (Site.declared?_of_function hFunction)
  obtain rfl : before = start := by
    rw [hCode] at hNodup hProgram
    exact Code.cut_unique hNodup hProgram
  refine ⟨front, site, back, locals, hSites, hFunction, hFixed, ?_, ?_⟩
  · rw [hAddress, ← Nat.zero_add (Code.size before)]
    exact placeLabels_size hMiddle (Nat.zero_le romSize)
  · intro other hOther name _ hCommand hNameFixed
    refine placeLabels_free hMiddle name ?_ ((Image.mem_fixedTable name).mpr hNameFixed)
    obtain ⟨tail, hTail⟩ := Site.code_of_declared (Site.declared?_of_function hCommand)
    rw [hStart]
    exact List.mem_flatMap.mpr ⟨other, hOther, by rw [hTail]; exact List.mem_cons_self⟩

end Program

/-- **A program that was translated is refused for a label exactly if one of its functions has the
name of a fixed symbol** and the code before that function fits; the label is the first such name.
Without such a function only room can be missing, in program memory or for a variable. -/
theorem refused_iff_fixed_function {options : Options} {sources : List Source} {parts : List Part}
    {code : Code} (hRead : readSources sources = .ok parts)
    (hTranslate : translate options sources = .ok code) :
    (∀ label, Machine.load code = .error (.labelTaken label) ↔ FirstFixed options parts label) ∧
    ((∀ site ∈ sites options parts, ∀ name locals, site.command = .function name locals →
        name ∉ Image.fixedNames) →
      ∀ fault, Machine.load code = .error fault →
        fault = .romFull ∨ ∃ symbol, fault = .noMemoryFor symbol) := by
  have hNodup := nodup_labels_of_translate hRead hTranslate
  obtain rfl := translate_eq_ok hRead hTranslate
  have hExact : ∀ label, Machine.load (programCode options parts) = .error (.labelTaken label) ↔
      FirstFixed options parts label := by
    intro label
    rw [Machine.load_eq_error]
    constructor
    · intro hRefused
      exact firstFixed_of_load_refuses hNodup hRefused
    · intro hFirst
      exact load_refuses_firstFixed hNodup hFirst
  refine ⟨hExact, fun hNone fault hFault => ?_⟩
  cases fault with
  | romFull => exact Or.inl rfl
  | noMemoryFor symbol => exact Or.inr ⟨symbol, rfl⟩
  | labelTaken label =>
    obtain ⟨front, site, back, locals, hSites, hFunction, hFixed, -⟩ := (hExact label).mp hFault
    have hSite : site ∈ sites options parts := by
      rw [hSites]
      simp
    exact absurd hFixed (hNone site hSite label locals hFunction)

/-- A function with the name of the stack pointer is translated, and then refused. -/
theorem stack_pointer_function_refused :
    ∃ code, translate ⟨false, false⟩ [.ofText "Main" "function SP 0"] = .ok code ∧
      Machine.load code = .error (.labelTaken "SP") := by
  let parts : List Part := [⟨"Main", [⟨⟨"Main.vm", 1⟩, .function "SP" 0⟩]⟩]
  have hRead : readSources [.ofText "Main" "function SP 0"] = .ok parts := rfl
  have hTranslate := @translate_isOk ⟨false, false⟩ _ _ hRead (by decide) (by decide)
  obtain ⟨hExact, -⟩ := refused_iff_fixed_function hRead hTranslate
  let site : Site := ⟨⟨"Main", entryPoint, 0, 0⟩, .function "SP" 0, 0⟩
  refine ⟨_, hTranslate, (hExact "SP").mpr ⟨[], site, [], 0, rfl, rfl, by decide, by decide, ?_⟩⟩
  intro other hOther
  cases hOther

end HackVm
