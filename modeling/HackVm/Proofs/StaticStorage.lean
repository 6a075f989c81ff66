import HackVm.Proofs.Placement
import HackVm.Proofs.Reading
import HackVm.Proofs.StaticCell
import HackVm.Proofs.SymbolName

/-!
# Static variables are apart

A static variable is a symbol like any other, and the loader takes a symbol that is also a label for
the label.  A function may have the name of a static variable, and so may a label of a function if
the name of the file has a dollar sign in it.  Every static variable that is no label has a word of
memory of its own: two of them share it exactly if they are the same variable of the same file.

* `Machine.Allocates`: the loader has given a symbol the memory of its `k`-th variable.
* `Machine.Allocates.cell_eq_iff`: it gives no two symbols the same word.
* `static_variables_apart`: what that says of the static variables of the files of a program.
-/

namespace HackVm

open Instruction

/-- The symbol of a static variable of a file. -/
def Part.staticSymbol (part : Part) (index : Word) : String :=
  (Scope.inFile {} part.name).variableSymbol index

/-- The loader has given a symbol the memory of its `k`-th variable. -/
structure Machine.Allocates (machine : Machine) (program : Code) (name : String) (k : Nat) :
    Prop where
  variable_eq : (Image.variableSymbols program)[k]? = some name
  lt_ramSize : variableBase + k < ramSize
  symbol_eq : machine.symbol? name = some (UInt16.ofNat (variableBase + k))

/-! ### The files of a program -/

theorem names_readSources {sources : List Source} {parts : List Part}
    (h : readSources sources = .ok parts) : parts.map Part.name = sources.map Source.name := by
  rw [← List.forall₂_eq_eq_eq, List.forall₂_map_left_iff, List.forall₂_map_right_iff]
  exact (readSources_eq_ok_iff.mp h).2.flip.imp fun part source hPart => hPart.name_eq

theorem name_eq_iff {sources : List Source} {parts : List Part}
    (hRead : readSources sources = .ok parts) (hNames : (sources.map Source.name).Nodup)
    {m n : Nat} {file other : Part} (hFile : parts[m]? = some file)
    (hOther : parts[n]? = some other) : file.name = other.name ↔ m = n := by
  rw [← names_readSources hRead] at hNames
  constructor
  · intro hName
    obtain ⟨hLength, -⟩ := List.getElem?_eq_some_iff.mp hFile
    refine (List.getElem?_inj (by rw [List.length_map]; exact hLength) hNames).mp ?_
    rw [List.getElem?_map, List.getElem?_map, hFile, hOther, Option.map_some, Option.map_some,
      hName]
  · rintro rfl
    rw [hFile] at hOther
    rw [Option.some.inj hOther]

/-! ### Symbols and memory -/

theorem Site.static_mem_symbols {site : Site} {symbol : String}
    (h : site.static? = some symbol) : symbol ∈ Code.symbols site.code := by
  obtain ⟨scope, command, address⟩ := site
  cases command with
  | push segment index =>
    cases segment <;> cases h
    exact List.mem_cons_self
  | pop segment index =>
    cases segment <;> cases h
    exact List.mem_cons_of_mem _ List.mem_cons_self
  | _ => cases h

theorem Part.staticSymbol_eq {part : Part} {scope : Scope} (h : scope.file = part.name)
    (index : Word) : scope.variableSymbol index = part.staticSymbol index := by
  rw [staticSymbol, Scope.variableSymbol_inj]
  exact ⟨h, rfl⟩

theorem Machine.Allocates.not_label {machine : Machine} {program : Code} {name : String} {k : Nat}
    (h : machine.Allocates program name k) : name ∉ Code.labels program :=
  (Image.mem_variableSymbols.mp (List.mem_of_getElem? h.variable_eq)).2.2

theorem Machine.Allocates.address_bounds {machine : Machine} {program : Code} {name : String}
    {k : Nat} (h : machine.Allocates program name k) :
    16 ≤ (machine.image.address name).toNat ∧
      (machine.image.address name).toNat < ramSize := by
  have hLt := h.lt_ramSize
  have hAddress : machine.image.address name = UInt16.ofNat (variableBase + k) :=
    Image.address_of_getElem? h.symbol_eq
  have hNat : (machine.image.address name).toNat = 16 + k := by
    unfold ramSize variableBase at hLt
    rw [hAddress, UInt16.toNat_ofNat', variableBase]
    omega
  rw [hNat]
  exact ⟨Nat.le_add_right 16 k, hLt⟩

/-- **No two symbols have the memory of the same variable.** -/
theorem Machine.Allocates.cell_eq_iff {machine : Machine} {program : Code} {name other : String}
    {k l : Nat} {v w : Word} (h : machine.Allocates program name k)
    (hOther : machine.Allocates program other l) (hv : machine.symbol? name = some v)
    (hw : machine.symbol? other = some w) : Memory.cell v = Memory.cell w ↔ name = other := by
  constructor
  · intro hCell
    have hIndex : k = l := by
      have hk := h.lt_ramSize
      have hl := hOther.lt_ramSize
      rw [h.symbol_eq] at hv
      rw [hOther.symbol_eq] at hw
      cases hv
      cases hw
      have := Fin.ext_iff.mp hCell
      simp only [Memory.cell, UInt16.toNat_ofNat'] at this
      unfold ramSize at this hk hl
      omega
    have hName := h.variable_eq
    rw [hIndex, hOther.variable_eq] at hName
    exact (Option.some.inj hName).symm
  · rintro rfl
    rw [hv] at hw
    rw [Option.some.inj hw]

/-- A static variable that is a label is the name of a function, or the name of its file has a
dollar sign in it. -/
theorem Scope.function_or_dollar_of_label {options : Options} {parts : List Part} {scope : Scope}
    {index : Word}
    (h : scope.variableSymbol index ∈ Code.labels (programCode options parts)) :
    (∃ site ∈ sites options parts, ∃ locals,
      site.command = .function (scope.variableSymbol index) locals) ∨ '$' ∈ scope.file.toList := by
  obtain ⟨site, hSite, hLabel⟩ := exists_site_of_label h
  rcases Site.function_or_dollar hLabel with hFunction | hDollar
  · exact Or.inl ⟨site, hSite, hFunction⟩
  · exact Or.inr (Scope.dollar_mem_variableSymbol hDollar)

/-- A static variable that is no label has memory of its own. -/
theorem allocates_static {options : Options} {parts : List Part} {machine : Machine}
    (hLoad : Machine.load (programCode options parts) = .ok machine) {site : Site}
    (hSite : site ∈ sites options parts) {symbol : String} (hStatic : site.static? = some symbol)
    (hLabel : symbol ∉ Code.labels (programCode options parts)) :
    ∃ k, machine.Allocates (programCode options parts) symbol k := by
  obtain ⟨hImage, -⟩ := Machine.load_eq_ok hLoad
  have hVariable : symbol ∈ Image.variableSymbols (programCode options parts) :=
    Image.mem_variableSymbols.mpr
      ⟨symbols_site_subset hSite (Site.static_mem_symbols hStatic),
        Site.static_not_fixed hStatic, hLabel⟩
  obtain ⟨k, hk⟩ := List.mem_iff_getElem?.mp hVariable
  have hFit := Image.variables_fit hImage
  obtain ⟨hLength, -⟩ := List.getElem?_eq_some_iff.mp hk
  exact ⟨k, hk, by omega, Image.getElem?_variable hImage hk⟩

/-- **The static variables of a program are apart.**  Every command loads the address of its static
variable.  A variable has memory of its own exactly if it is no label, and two such variables are the
same word exactly if they are the same variable of the same file.  A variable that is a label stands for
the place of the label in program memory; this takes a function with its name, or a dollar sign in
the name of its file. -/
theorem static_variables_apart {options : Options} {sources : List Source} {parts : List Part}
    {code : Code} {machine : Machine} (hRead : readSources sources = .ok parts)
    (hNames : (sources.map Source.name).Nodup) (hTranslate : translate options sources = .ok code)
    (hLoad : Machine.load code = .ok machine) :
    (∀ site ∈ sites options parts, ∀ symbol, site.static? = some symbol →
      ∃ pc address, site.address ≤ pc ∧ pc < site.next ∧
        machine.symbol? symbol = some address ∧ machine.image.rom[pc]? = some (.load address)) ∧
    (∀ file ∈ parts, ∀ s ∈ file.statements, ∀ index, s.command.static? = some index →
      let symbol := file.staticSymbol index
      (∃ site ∈ sites options parts, site.command = s.command ∧ site.static? = some symbol) ∧
      ((∃ k, machine.Allocates code symbol k) ↔ symbol ∉ Code.labels code) ∧
      (symbol ∈ Code.labels code →
        (∃ pc rest, Code.At code pc (.label symbol :: rest) ∧
          machine.symbol? symbol = some (UInt16.ofNat pc)) ∧
        ((∃ site ∈ sites options parts, ∃ locals, site.command = .function symbol locals) ∨
          '$' ∈ file.name.toList))) ∧
    ∀ (m n : Nat) (file other : Part), parts[m]? = some file → parts[n]? = some other →
      ∀ s ∈ file.statements, ∀ t ∈ other.statements, ∀ i j,
        s.command.static? = some i → t.command.static? = some j →
        file.staticSymbol i ∉ Code.labels code → other.staticSymbol j ∉ Code.labels code →
        ∀ v w, machine.symbol? (file.staticSymbol i) = some v →
          machine.symbol? (other.staticSymbol j) = some w →
          (Memory.cell v = Memory.cell w ↔ m = n ∧ i = j) := by
  obtain rfl := translate_eq_ok hRead hTranslate
  obtain ⟨hImage, -⟩ := Machine.load_eq_ok hLoad
  -- a command has the symbol of its file, wherever in the file it stands
  have hSites : ∀ file ∈ parts, ∀ s ∈ file.statements, ∀ index,
      s.command.static? = some index → ∃ site ∈ sites options parts,
        site.command = s.command ∧ site.static? = some (file.staticSymbol index) := by
    intro file hFile s hs index hIndex
    obtain ⟨site, hSite, hName, hCommand⟩ := exists_site_of_statement options hFile hs
    refine ⟨site, hSite, hCommand, ?_⟩
    rw [Site.static?_eq, hCommand, hIndex, Option.map_some, Part.staticSymbol_eq hName]
  refine ⟨?_, ?_, ?_⟩
  · intro site hSite symbol hStatic
    have hSymbol := Site.static_mem_symbols hStatic
    obtain ⟨pc, hLe, hLt, hRom⟩ := Site.getElem?_symbol hImage hSite hSymbol
    exact ⟨pc, _, hLe, hLt, Image.getElem?_symbol hImage (symbols_site_subset hSite hSymbol), hRom⟩
  · intro file hFile s hs index hIndex symbol
    obtain ⟨site, hSite, hCommand, hStatic⟩ := hSites file hFile s hs index hIndex
    refine ⟨⟨site, hSite, hCommand, hStatic⟩, ⟨?_, allocates_static hLoad hSite hStatic⟩, ?_⟩
    · rintro ⟨k, hk⟩
      exact hk.not_label
    · intro hLabel
      obtain ⟨before, behind, hCode⟩ := Code.exists_label hLabel
      have hAt : Code.At (programCode options parts) (Code.size before) (.label symbol :: behind) :=
        ⟨before, [], by rw [hCode, List.append_nil], rfl⟩
      exact ⟨⟨_, _, hAt, Image.getElem?_label hImage hAt⟩,
        Scope.function_or_dollar_of_label hLabel⟩
  · intro m n file other hFile hOther s hs t ht i j hi hj hFree hOtherFree v w hv hw
    obtain ⟨site, hSite, -, hStatic⟩ := hSites file (List.mem_of_getElem? hFile) s hs i hi
    obtain ⟨site', hSite', -, hStatic'⟩ := hSites other (List.mem_of_getElem? hOther) t ht j hj
    obtain ⟨k, hk⟩ := allocates_static hLoad hSite hStatic hFree
    obtain ⟨l, hl⟩ := allocates_static hLoad hSite' hStatic' hOtherFree
    rw [hk.cell_eq_iff hl hv hw, Part.staticSymbol, Part.staticSymbol, Scope.variableSymbol_inj]
    exact and_congr_left' (name_eq_iff hRead hNames hFile hOther)

/-- Two files that both have a first static variable. -/
theorem first_variables_apart :
    ∃ code machine v w, translate ⟨false, false⟩
        [.ofText "A" "push static 0", .ofText "B" "push static 0"] = .ok code ∧
      Machine.load code = .ok machine ∧ machine.symbol? "A.0" = some v ∧
      machine.symbol? "B.0" = some w ∧ Memory.cell v ≠ Memory.cell w := by
  let first : Part := ⟨"A", [⟨⟨"A.vm", 1⟩, .push .static 0⟩]⟩
  let second : Part := ⟨"B", [⟨⟨"B.vm", 1⟩, .push .static 0⟩]⟩
  have hRead : readSources [.ofText "A" "push static 0", .ofText "B" "push static 0"] =
      .ok [first, second] := rfl
  have hNodup : (Code.labels (programCode ⟨false, false⟩ [first, second])).Nodup := by decide
  have hTranslate := translate_isOk hRead (by decide) hNodup
  obtain ⟨image, hImage⟩ := Image.load_isOk hNodup (by decide) (by decide +kernel) (by decide)
  obtain ⟨-, hVariables, hApart⟩ := static_variables_apart hRead (by decide) hTranslate
    (Machine.load_of_image hImage)
  have hFirst : first.staticSymbol 0 = "A.0" := by decide
  have hSecond : second.staticSymbol 0 = "B.0" := by decide
  obtain ⟨k, hk⟩ := (hVariables first (by simp) _ List.mem_cons_self 0 rfl).2.1.mpr (by decide)
  obtain ⟨l, hl⟩ := (hVariables second (by simp) _ List.mem_cons_self 0 rfl).2.1.mpr (by decide)
  refine ⟨_, _, _, _, hTranslate, Machine.load_of_image hImage, hFirst ▸ hk.symbol_eq,
    hSecond ▸ hl.symbol_eq, fun hCell => ?_⟩
  have hSame := (hApart 0 1 first second rfl rfl _ List.mem_cons_self _ List.mem_cons_self 0 0
    rfl rfl (by decide) (by decide) _ _ hk.symbol_eq hl.symbol_eq).mp hCell
  exact absurd hSame.1 (by decide)

end HackVm
