import HackVm.Proofs.CommandText
import HackVm.Proofs.ProgramText
import HackVm.Proofs.Reading
import HackVm.Proofs.SiteCode

/-!
# The assembly of a program is well-formed

An instruction is well-formed if its line is one of assembly: a symbol or a label is a name, a number
fits into an instruction, a computation is stored or jumps, and a comment has no line break of any
kind in it.

Symbols are put together from names of the source, the name of the file among them, and from counters
(`Scope.Named`).  Numbers are those of the source, and the addresses of `temp` and `pointer`, which
are small because the index is checked (`Segment.wellFormed_place`).

* `Command.wellFormed_emitted`: the code of a command that can be spelled is well-formed.
* `wellFormed_inputsCode`: so is the code of inputs, one after the other.
* `Instruction.WellFormed.isAssembly`: the line of a well-formed instruction, which tells the
  instruction (`Instruction.WellFormed.isPlain`).
* `assembly_well_formed`: the program that files with names for names are translated to, and its text.
-/

namespace HackVm

open Text Instruction

/-! ### Well-formed code -/

/-- The characters that end a line, here or elsewhere. -/
def lineBreaks : List Char :=
  ['\n', '\r', '\x0b', '\x0c', '\u0085', '\u2028', '\u2029']

/-- A text of a single line. -/
def OneLine (text : String) : Prop :=
  ∀ c ∈ text.toList, c ∉ lineBreaks

instance (text : String) : Decidable (OneLine text) :=
  List.decidableBAll (· ∉ lineBreaks) text.toList

/-- A name, or a number that an instruction can load. -/
def Address.WellFormed : Address → Prop
  | symbol name => IsName name
  | number value => value.toNat ≤ 32767

instance : (address : Address) → Decidable address.WellFormed
  | .symbol name => inferInstanceAs (Decidable (IsName name))
  | .number value => inferInstanceAs (Decidable (value.toNat ≤ 32767))

/-- Whether the line of the instruction is one of assembly.  A computation is stored or it jumps, and
does not do both. -/
def Instruction.WellFormed : Instruction → Prop
  | load address => address.WellFormed
  | compute dest _ jump => dest.isSome = !jump.isSome
  | label name => IsName name
  | comment text => OneLine text

instance : (i : Instruction) → Decidable i.WellFormed
  | .load address => inferInstanceAs (Decidable address.WellFormed)
  | .compute dest _ jump => inferInstanceAs (Decidable (dest.isSome = !jump.isSome))
  | .label name => inferInstanceAs (Decidable (IsName name))
  | .comment text => inferInstanceAs (Decidable (OneLine text))

namespace Instruction

variable {name : String} {value : Word} {dest : Dest} {comp : Comp} {jump : Jump}

@[simp] theorem wellFormed_symbol : (symbol name).WellFormed ↔ IsName name :=
  Iff.rfl

@[simp] theorem wellFormed_number : (number value).WellFormed ↔ value.toNat ≤ 32767 :=
  Iff.rfl

@[simp] theorem wellFormed_set : (set dest comp).WellFormed :=
  rfl

@[simp] theorem wellFormed_branch : (branch comp jump).WellFormed :=
  rfl

@[simp] theorem wellFormed_label : (label name).WellFormed ↔ IsName name :=
  Iff.rfl

end Instruction

namespace Code

variable {i : Instruction} {code rest : Code}

/-- Code of which every instruction is well-formed. -/
def WellFormed (code : Code) : Prop :=
  ∀ i ∈ code, i.WellFormed

instance : Decidable code.WellFormed :=
  inferInstanceAs (Decidable (∀ i ∈ code, i.WellFormed))

@[simp] theorem wellFormed_nil : WellFormed [] :=
  List.forall_mem_nil _

@[simp] theorem wellFormed_cons : WellFormed (i :: code) ↔ i.WellFormed ∧ WellFormed code :=
  List.forall_mem_cons

@[simp] theorem wellFormed_append :
    WellFormed (code ++ rest) ↔ WellFormed code ∧ WellFormed rest :=
  List.forall_mem_append

@[simp] theorem wellFormed_pushD : WellFormed pushD := by
  decide

@[simp] theorem wellFormed_popD : WellFormed popD := by
  decide

end Code

/-! ### Names -/

theorem repr_subset (n : Nat) : n.repr.toList ⊆ nameAlphabet :=
  fun c hc => List.mem_append_right _ (isDigit_iff.mp (isDigit_repr n c hc))

/-- A number behind a stem. -/
theorem numbered_subset {stem : String} (h : stem.toList ⊆ nameAlphabet) (n : Nat) :
    (stem ++ n.repr).toList ⊆ nameAlphabet := by
  rw [String.toList_append]
  exact List.append_subset.mpr ⟨h, repr_subset n⟩

/-- A name goes on with any characters of names. -/
theorem IsName.append {name rest : String} (h : IsName name) (hRest : rest.toList ⊆ nameAlphabet) :
    IsName (name ++ rest) := by
  refine ⟨?_, ?_, ?_⟩
  · simp [h.ne_nil]
  · rw [String.toList_append, List.head?_append, List.head?_eq_some_head h.ne_nil]
    exact fun c hc => h.head_not_digit c ((List.head?_eq_some_head h.ne_nil).trans hc)
  · rw [String.toList_append]
    exact List.append_subset.mpr ⟨h.mem_alphabet, hRest⟩

/-- The parts of a scope that go into symbols.  Before the first file there is a point only, which is
a name too. -/
structure Scope.Named (scope : Scope) : Prop where
  file : IsName (scope.file ++ ".")
  function : IsName scope.function

namespace Scope.Named

variable {scope : Scope}

theorem variableSymbol (h : scope.Named) (index : Word) : IsName (scope.variableSymbol index) :=
  h.file.append (repr_subset index.toNat)

theorem labelSymbol (h : scope.Named) {label : String} (hLabel : label.toList ⊆ nameAlphabet) :
    IsName (scope.labelSymbol label) :=
  (h.function.append (by decide)).append hLabel

theorem trueSymbol (h : scope.Named) : IsName scope.trueSymbol :=
  h.labelSymbol (numbered_subset (by decide) _)

theorem endSymbol (h : scope.Named) : IsName scope.endSymbol :=
  h.labelSymbol (numbered_subset (by decide) _)

theorem returnSymbol (h : scope.Named) : IsName scope.returnSymbol :=
  h.labelSymbol (numbered_subset (by decide) _)

theorem start : Scope.Named {} :=
  ⟨by decide, by decide⟩

theorem inFile (h : scope.Named) {name : String} (hName : IsName name) :
    (scope.inFile name).Named :=
  ⟨hName.append (by decide), h.function⟩

theorem after (h : scope.Named) {command : Command} (hCommand : command.IsSpellable) :
    (scope.after command).Named := by
  refine ⟨?_, ?_⟩
  · rw [scope.file_after]
    exact h.file
  · rcases scope.function_after command with hSame | ⟨locals, hFunction⟩
    · rw [hSame]
      exact h.function
    · rw [hFunction] at hCommand
      exact hCommand.1

end Scope.Named

/-! ### Places -/

/-- What code needs to know of a place. -/
def Place.WellFormed : Place → Prop
  | literal value => value.toNat ≤ 32767
  | based register offset => IsName register ∧ offset.toNat ≤ 32767
  | fixed address => address.WellFormed

theorem Segment.wellFormed_slot {segment : Segment} {base size index : Word} {place : Place}
    (h : slot segment base size index = .ok place) (hSize : base.toNat + size.toNat ≤ 32767) :
    place.WellFormed := by
  rw [slot] at h
  split at h
  · next hIndex =>
    cases h
    have hLt := UInt16.lt_iff_toNat_lt.mp hIndex
    rw [Place.WellFormed, Address.WellFormed, UInt16.toNat_add]
    omega
  · cases h

theorem Segment.wellFormed_place {scope : Scope} {segment : Segment} {index : Word} {place : Place}
    (hScope : scope.Named) (hIndex : index.toNat ≤ 32767)
    (h : segment.place scope index = .ok place) : place.WellFormed := by
  cases segment with
  | constant => cases h; exact hIndex
  | static => cases h; exact hScope.variableSymbol index
  | locals => cases h; exact ⟨by decide, hIndex⟩
  | argument => cases h; exact ⟨by decide, hIndex⟩
  | this => cases h; exact ⟨by decide, hIndex⟩
  | that => cases h; exact ⟨by decide, hIndex⟩
  | temp => exact wellFormed_slot h (by decide)
  | pointer => exact wellFormed_slot h (by decide)

theorem Place.WellFormed.read {place : Place} (h : place.WellFormed) :
    Code.WellFormed place.read := by
  cases place with
  | literal value =>
    have hValue : (number value).WellFormed := h
    simpa [Place.read] using hValue
  | based register offset =>
    obtain ⟨hRegister, hOffset⟩ := h
    simp [Place.read, hRegister, hOffset]
  | fixed address =>
    have hAddress : (load address).WellFormed := h
    simp [Place.read, hAddress]

theorem Place.WellFormed.store {place : Place} (h : place.WellFormed) {target : Target} {find : Code}
    (hTarget : place.target? = some (target, find)) : Code.WellFormed (find ++ target.store) := by
  cases place with
  | literal value => cases hTarget
  | based register offset =>
    cases hTarget
    obtain ⟨hRegister, hOffset⟩ := h
    have hKept : IsName popRegister := by decide
    simp [Target.store, hRegister, hOffset, hKept]
  | fixed address =>
    cases hTarget
    have hAddress : (load address).WellFormed := h
    simp [Target.store, hAddress]

/-! ### Commands -/

theorem wellFormed_functionCode {name : String} (h : IsName name) (locals : Word) :
    Code.WellFormed (functionCode name locals) := by
  have hPush : Code.WellFormed (pushNumber 0) := by decide
  refine Code.wellFormed_cons.mpr ⟨h, ?_⟩
  intro i hi
  obtain ⟨code, hCode, hMem⟩ := List.mem_flatten.mp hi
  rw [List.eq_of_mem_replicate hCode] at hMem
  exact hPush i hMem

theorem wellFormed_callCode {name back : String} {arguments : Word} (h : IsName name)
    (hBack : IsName back) (hArguments : arguments.toNat ≤ 32767) :
    Code.WellFormed (callCode name arguments back) := by
  have hSave : Code.WellFormed (savedRegisters.flatMap saveRegister) := by decide
  have hRegisters : IsName "SP" ∧ IsName "ARG" ∧ IsName "LCL" := by decide
  have hFrame : frameSize.toNat ≤ 32767 := by decide
  simp [callCode, h, hBack, hArguments, hSave, hRegisters, hFrame]

theorem wellFormed_compareCode (op : Comparison) {holds meet : String} (hHolds : IsName holds)
    (hMeet : IsName meet) : Code.WellFormed (op.code holds meet) := by
  have hStack : IsName "SP" := by decide
  simp [Comparison.code, hHolds, hMeet, hStack]

/-- **The code of a command that can be spelled is well-formed.** -/
theorem Command.wellFormed_emitted {scope : Scope} {command : Command} (hScope : scope.Named)
    (h : command.IsSpellable) : Code.WellFormed (command.emitted scope) := by
  cases command with
  | push segment index =>
    cases hCode : pushCode scope segment index with
    | error fault =>
      rw [emitted, Command.code, hCode]
      exact Code.wellFormed_nil
    | ok code =>
      obtain ⟨place, hPlace, rfl⟩ := place_of_pushCode hCode
      rw [emitted_push hCode, Code.wellFormed_append]
      exact ⟨(Segment.wellFormed_place hScope h hPlace).read, Code.wellFormed_pushD⟩
  | pop segment index =>
    cases hCode : popCode scope segment index with
    | error fault =>
      rw [emitted, Command.code, hCode]
      exact Code.wellFormed_nil
    | ok code =>
      obtain ⟨place, hPlace, target, find, hTarget, rfl⟩ := place_of_popCode hCode
      rw [emitted_pop hCode]
      exact (Segment.wellFormed_place hScope h hPlace).store hTarget
  | unary op =>
    have hAll : ∀ op : UnaryOp, Code.WellFormed op.code := by rintro ⟨⟩ <;> decide
    exact hAll op
  | binary op =>
    have hAll : ∀ op : BinaryOp, Code.WellFormed op.code := by rintro ⟨⟩ <;> decide
    exact hAll op
  | compare op => exact wellFormed_compareCode op hScope.trueSymbol hScope.endSymbol
  | label name =>
    exact Code.wellFormed_cons.mpr ⟨hScope.labelSymbol h.mem_alphabet, Code.wellFormed_nil⟩
  | goto name =>
    have hName := hScope.labelSymbol h.mem_alphabet
    exact Code.wellFormed_cons.mpr ⟨hName, by decide⟩
  | ifGoto name =>
    have hName := hScope.labelSymbol h.mem_alphabet
    exact Code.wellFormed_append.mpr ⟨by decide, Code.wellFormed_cons.mpr ⟨hName, by decide⟩⟩
  | function name locals => exact wellFormed_functionCode h.1 locals
  | call name arguments => exact wellFormed_callCode h.1 hScope.returnSymbol h.2
  | ret =>
    have hReturn : Code.WellFormed returnCode := by decide
    exact hReturn

/-! ### Inputs -/

/-- The text of a command that can be spelled is a single line. -/
theorem Command.oneLine_text {command : Command} (h : command.IsSpellable) :
    OneLine command.text := by
  have hBreaks : (lineBreaks.all fun c => isBlank c && !isGap c) = true := by
    decide
  intro c hc hBreak
  obtain ⟨hBlank, hNoGap⟩ : isBlank c = true ∧ isGap c = false := by
    simpa using List.all_eq_true.mp hBreaks c hBreak
  rcases (Command.spells_text h).mem_cases hc with hGap | hLetter
  · rw [hNoGap] at hGap
    cases hGap
  · rw [isBlank_of_mem_wordAlphabet hLetter] at hBlank
    cases hBlank

/-- An input whose names are names and whose numbers fit into an instruction. -/
def Input.Spelled : Input → Prop
  | file name => IsName name
  | statement s => s.command.IsSpellable

theorem Input.Spelled.after {input : Input} (h : input.Spelled) {scope : Scope}
    (hScope : scope.Named) : (input.after scope).Named := by
  cases input with
  | file name => exact hScope.inFile h
  | statement s => exact hScope.after h

theorem Input.Spelled.wellFormed_code {input : Input} (h : input.Spelled) {scope : Scope}
    (hScope : scope.Named) (comments : Bool) : Code.WellFormed (input.code comments scope) := by
  cases input with
  | file name => exact Code.wellFormed_nil
  | statement s =>
    refine Code.wellFormed_append.mpr ⟨?_, Command.wellFormed_emitted hScope h⟩
    cases comments with
    | false => exact Code.wellFormed_nil
    | true => exact Code.wellFormed_cons.mpr ⟨Command.oneLine_text h, Code.wellFormed_nil⟩

/-- **The code of inputs is well-formed**, one after the other, as every scope is named. -/
theorem wellFormed_inputsCode (comments : Bool) {inputs : List Input} :
    ∀ {scope : Scope}, scope.Named → (∀ input ∈ inputs, input.Spelled) →
      Code.WellFormed (inputsCode comments scope inputs) := by
  induction inputs with
  | nil => exact fun _ _ => Code.wellFormed_nil
  | cons input rest ih =>
    intro scope hScope h
    obtain ⟨hInput, hRest⟩ := List.forall_mem_cons.mp h
    exact Code.wellFormed_append.mpr
      ⟨hInput.wellFormed_code hScope comments, ih (hInput.after hScope) hRest⟩

/-! ### Programs -/

theorem Source.IsPart.isSpellable {source : Source} {part : Part} (h : source.IsPart part)
    {s : Statement} (hs : s ∈ part.statements) : s.command.IsSpellable := by
  obtain ⟨number, text, -, hRead, -⟩ := (h.mem_iff s).mp hs
  obtain ⟨operands, hTakes, -⟩ := Command.read_eq_ok.mp hRead
  exact Command.isSpellable_iff.mpr ⟨operands, hTakes⟩

theorem spelled_inputs {sources : List Source} {parts : List Part}
    (hNames : ∀ source ∈ sources, IsName source.name)
    (hRead : readSources sources = .ok parts) : ∀ input ∈ inputs parts, input.Spelled := by
  intro input hInput
  obtain ⟨part, hPart, hMem⟩ := List.mem_flatMap.mp hInput
  obtain ⟨source, hSource, hFile⟩ :=
    exists_of_forall₂ (readSources_eq_ok_iff.mp hRead).2.flip hPart
  rcases List.mem_cons.mp hMem with rfl | hStatement
  · exact hFile.name_eq ▸ hNames source hSource
  · obtain ⟨s, hs, rfl⟩ := List.mem_map.mp hStatement
    exact hFile.isSpellable hs

theorem wellFormed_prologue (options : Options) : Code.WellFormed (prologue options) := by
  rcases options with ⟨_ | _, _ | _⟩ <;> decide

theorem wellFormed_programCode {options : Options} {sources : List Source} {parts : List Part}
    (hNames : ∀ source ∈ sources, IsName source.name)
    (hRead : readSources sources = .ok parts) : Code.WellFormed (programCode options parts) := by
  have hEntry : (Command.call entryPoint 0).IsSpellable := by decide
  have hInputs : ∀ input ∈ programInputs options parts, input.Spelled := by
    refine List.forall_mem_append.mpr ⟨?_, spelled_inputs hNames hRead⟩
    cases options.bootstrap with
    | false => nofun
    | true => exact List.forall_mem_singleton.mpr hEntry
  exact Code.wellFormed_append.mpr
    ⟨wellFormed_prologue options, wellFormed_inputsCode options.comments .start hInputs⟩

/-! ### Lines of assembly -/

/-- The lines of assembly. -/
inductive IsAssembly : String → Prop
  | symbol {name : String} : IsName name → IsAssembly ("@" ++ name)
  | number {value : Nat} : value ≤ 32767 → IsAssembly ("@" ++ value.repr)
  | assign (dest : Dest) (comp : Comp) : IsAssembly (dest.text ++ "=" ++ comp.text)
  | jump (comp : Comp) (jump : Jump) : IsAssembly (comp.text ++ ";" ++ jump.text)
  | label {name : String} : IsName name → IsAssembly ("(" ++ name ++ ")")
  | comment {text : String} : OneLine text → IsAssembly ("// " ++ text)

/-- **The line of a well-formed instruction** is one of assembly. -/
theorem Instruction.WellFormed.isAssembly {i : Instruction} (h : i.WellFormed) :
    IsAssembly i.text := by
  cases i with
  | load address =>
    cases address with
    | symbol name => exact .symbol h
    | number value => exact .number h
  | compute dest comp jump =>
    cases dest with
    | some dest =>
      cases jump with
      | some jump => cases h
      | none => simpa [text] using IsAssembly.assign dest comp
    | none =>
      cases jump with
      | some jump => simpa [text, String.append_assoc] using IsAssembly.jump comp jump
      | none => cases h
  | label name => exact .label h
  | comment text => exact .comment h

/-- A name is not written like a number: it does not start with a digit. -/
theorem IsName.isPlain {name : String} (h : IsName name) : (Address.symbol name).IsPlain := by
  rintro value rfl
  obtain ⟨c, rest, hDigits⟩ := List.exists_cons_of_ne_nil h.ne_nil
  have hHead := h.head_not_digit c (by rw [hDigits, List.head?_cons, Option.mem_some])
  have hDigit := isDigit_repr value.toNat c (hDigits ▸ List.mem_cons_self)
  exact hHead (isDigit_iff.mp hDigit)

/-- A well-formed instruction is told from its line. -/
theorem Instruction.WellFormed.isPlain {i : Instruction} (h : i.WellFormed) : i.IsPlain := by
  have hName : ∀ {name : String}, IsName name → '\n' ∉ name.toList :=
    fun hName hMem => absurd (hName.mem_alphabet _ hMem) (by decide)
  cases i with
  | load address =>
    cases address with
    | symbol name =>
      refine ⟨?_, ?_⟩
      · rintro own ⟨⟩
        exact hName h
      · rintro address ⟨⟩
        exact IsName.isPlain h
    | number value =>
      refine ⟨nofun, ?_⟩
      rintro address ⟨⟩
      trivial
  | compute dest comp jump => exact ⟨nofun, nofun⟩
  | label name =>
    refine ⟨?_, nofun⟩
    rintro own ⟨⟩
    exact hName h
  | comment text =>
    refine ⟨?_, nofun⟩
    rintro own ⟨⟩
    exact fun hMem => h _ hMem (by decide)

/-- **The assembly of a program is well-formed.**  Files whose names are names are translated, if at
all, to code of which every symbol and label is a name, every number fits into an instruction, every
computation is stored or jumps, and no comment has a line break.  The text of this code has just the
lines of its instructions, each ended by a line feed, and each of them is a line of assembly. -/
theorem assembly_well_formed {options : Options} {sources : List Source} {code : Code}
    (hNames : ∀ source ∈ sources, IsName source.name)
    (hTranslate : translate options sources = .ok code) :
    Code.WellFormed code ∧
      split '\n' (render code).toList = code.map (·.text.toList) ++ [[]] ∧
        ∀ i ∈ code, IsAssembly i.text := by
  have hCode : Code.WellFormed code := by
    cases hRead : readSources sources with
    | error error =>
      rw [translate, hRead] at hTranslate
      cases hTranslate
    | ok parts =>
      rw [translate_eq_ok hRead hTranslate]
      exact wellFormed_programCode hNames hRead
  have hLines : ∀ i ∈ code, '\n' ∉ i.text.toList :=
    fun i hi => i.lineFeed_not_mem_text (hCode i hi).isPlain.one_line
  exact ⟨hCode, split_render hLines,
    fun i hi => (hCode i hi).isAssembly⟩

/-- The largest numbers, and names with every sign in them. -/
theorem largest_numbers_well_formed :
    ∃ code, translate ⟨false, true⟩
        [.ofText "_A.$:" "push static 32767\npop temp 7\ncall b$:_.1 32767"] = .ok code ∧
      Code.WellFormed code ∧ symbol "_A.$:.32767" ∈ code ∧ number 12 ∈ code ∧
      number 32767 ∈ code ∧ IsAssembly (label "Sys.init$ret.0").text := by
  let parts : List Part := [⟨"_A.$:", [⟨⟨"_A.$:.vm", 1⟩, .push .static 32767⟩,
    ⟨⟨"_A.$:.vm", 2⟩, .pop .temp 7⟩, ⟨⟨"_A.$:.vm", 3⟩, .call "b$:_.1" 32767⟩]⟩]
  have hRead : readSources
      [.ofText "_A.$:" "push static 32767\npop temp 7\ncall b$:_.1 32767"] = .ok parts := rfl
  have hTranslate := translate_isOk hRead (by decide)
    (show (Code.labels (programCode ⟨false, true⟩ parts)).Nodup by decide)
  obtain ⟨hCode, -, hLines⟩ := assembly_well_formed (by decide) hTranslate
  exact ⟨_, hTranslate, hCode, by decide, by decide, by decide, hLines _ (by decide)⟩

end HackVm
