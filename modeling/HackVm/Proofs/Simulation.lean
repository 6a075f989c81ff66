import HackVm.Proofs.CommandRun
import HackVm.Proofs.DistinctLabels
import HackVm.Proofs.StaticCell
import HackVm.Proofs.Stepping

/-!
# The machine follows the reference interpreter

The code of a program makes the machine do what the reference interpreter does with its commands,
for runs of any length.  A push of the machine raises `SP` before it stores the value, so the
machine follows the interpreter that does the same (`Linked.run`).  The interpreter that stores
first takes the same steps as long as no value goes into the word of `SP` itself; where one does,
the machine leaves another memory behind.

* `Linked.perform`: the code of one command has the effect of the command.
* `Linked.run`: runs of any length, by induction on the number of commands.
* `Linked.step_eq_none_iff`: the interpreter stops only where the machine stops, or where a `return`
  finds an address at which no command begins or ends.
* `machine_follows_interpreter`: all of it for source files, with the states from which it starts.
-/

namespace HackVm

open Instruction Register

namespace Reference

/-- The machine is at the address of a state and has its memory. -/
structure Agrees (machine : Machine) (state : State) : Prop where
  pc_eq : machine.cpu.pc = state.address
  memory_eq : machine.cpu.memory = state.memory

end Reference

open Reference

/-! ### Linked programs -/

/-- A program that loads, declares every symbol that it jumps to, and none of its static
variables. -/
structure Linked (options : Options) (parts : List Part) (image : Image) : Prop where
  load : Image.load (programCode options parts) = .ok image
  targets : ∀ site ∈ sites options parts, ∀ symbol, site.target? = some symbol →
    ∃ other ∈ sites options parts, other.declared? = some symbol
  statics : ∀ site ∈ sites options parts, ∀ symbol, site.static? = some symbol →
    symbol ∉ Code.labels (programCode options parts)

namespace Linked

variable {options : Options} {parts : List Part} {image : Image} (h : Linked options parts image)

include h

theorem target_mem_labels {site : Site} (hSite : site ∈ sites options parts) {symbol : String}
    (hSymbol : site.target? = some symbol) : symbol ∈ Code.labels (programCode options parts) := by
  obtain ⟨other, hOther, hDeclared⟩ := h.targets site hSite symbol hSymbol
  obtain ⟨rest, hCode⟩ := Site.code_of_declared hDeclared
  apply labels_site_subset hOther
  rw [hCode]
  exact List.mem_cons_self

theorem address_static {site : Site} (hSite : site ∈ sites options parts) {symbol : String}
    (hSymbol : site.static? = some symbol) :
    image.address symbol = staticCell (sites options parts) symbol :=
  HackVm.address_static h.load (fun _ hMem _ => h.target_mem_labels hMem) h.statics hSite hSymbol

theorem address_entrance {symbol : String} {address : Nat}
    (hEntrance : entrance? (sites options parts) symbol = some address) :
    (image.address symbol).toNat = address := by
  obtain ⟨site, hSite, hDeclared, rfl⟩ := entrance?_eq_some hEntrance
  exact address_declared h.load hSite hDeclared

theorem read_static {scope : Scope} {segment : Segment} {index : Word} {address : Nat}
    (hSite : ⟨scope, .push segment index, address⟩ ∈ sites options parts) (memory : Memory) :
    memory.read segment index (image.address (scope.variableSymbol index)) =
      memory.read segment index
        (staticCell (sites options parts) (scope.variableSymbol index)) := by
  cases segment with
  | static => rw [h.address_static hSite rfl]
  | _ => rfl

theorem popInto_static {scope : Scope} {segment : Segment} {index : Word} {address : Nat}
    (hSite : ⟨scope, .pop segment index, address⟩ ∈ sites options parts) (memory : Memory) :
    memory.popInto segment index (image.address (scope.variableSymbol index)) =
      memory.popInto segment index
        (staticCell (sites options parts) (scope.variableSymbol index)) := by
  cases segment with
  | static => rw [h.address_static hSite rfl]
  | _ => rfl

/-! ### One command -/

theorem straight {site : Site} (hSite : site ∈ sites options parts) {cpu : Cpu}
    (hPc : cpu.pc = site.address) (hStraight : Code.isStraight site.code = true) {memory : Memory}
    (hMemory : (Code.run image.address site.code cpu).memory = memory) :
    Cpu.ArrivesAt image.rom site.size cpu site.next memory := by
  have hAt := Code.at_site hSite
  rw [← hPc] at hAt
  have := Cpu.arrivesAt_straight h.load hAt hStraight hMemory
  rwa [hPc] at this

/-- **The code of a command does what the command does**, if values are stored under a raised
`SP`. -/
theorem perform {site : Site} (hSite : site ∈ sites options parts) (hSize : 0 < site.size)
    {cpu : Cpu} (hPc : cpu.pc = site.address) {next : State}
    (hNext : Reference.perform .pushUnder (sites options parts) site cpu.memory = some next) :
    ∃ n, 0 < n ∧ Cpu.ArrivesAt image.rom n cpu next.address next.memory := by
  have hFixed := Image.fixedAddresses h.load
  have hAt : Code.At (programCode options parts) cpu.pc site.code := hPc ▸ Code.at_site hSite
  obtain ⟨scope, command, address⟩ := site
  cases command with
  | push segment index =>
    cases hNext
    rw [← h.read_static hSite]
    have hCode := Command.pushCode_of_emitted (Site.code_ne_nil hSize)
    obtain ⟨hStraight, hMemory⟩ := run_pushCode hFixed cpu hCode
    exact ⟨_, hSize, h.straight hSite hPc hStraight hMemory⟩
  | pop segment index =>
    cases hNext
    rw [← h.popInto_static hSite]
    have hCode := Command.popCode_of_emitted (Site.code_ne_nil hSize)
    obtain ⟨hStraight, hMemory⟩ := run_popCode hFixed cpu hCode
    exact ⟨_, hSize, h.straight hSite hPc hStraight hMemory⟩
  | unary op =>
    cases hNext
    exact ⟨_, hSize, h.straight hSite hPc rfl (run_unary hFixed cpu op)⟩
  | binary op =>
    cases hNext
    exact ⟨_, hSize, h.straight hSite hPc (by cases op <;> rfl) (run_binary hFixed cpu op)⟩
  | compare op =>
    cases hNext
    obtain ⟨n, hArrives⟩ := Cpu.arrivesAt_compare h.load hAt
    rw [hPc] at hArrives
    exact ⟨_, Nat.lt_of_lt_of_le (by decide) (Nat.le_add_right 7 n), hArrives⟩
  | label name => exact absurd hSize (Nat.lt_irrefl 0)
  | goto name =>
    obtain ⟨target, hEntrance, rfl⟩ := Option.map_eq_some_iff.mp hNext
    rw [← h.address_entrance hEntrance]
    exact ⟨_, hSize, Cpu.arrivesAt_goto h.load hAt⟩
  | ifGoto name =>
    have hArrives := Cpu.arrivesAt_ifGoto h.load hAt
    simp only [Reference.perform] at hNext
    split at hNext
    · next hZero =>
      cases hNext
      rw [if_pos hZero, hPc] at hArrives
      exact ⟨_, hSize, hArrives⟩
    · next hZero =>
      obtain ⟨target, hEntrance, rfl⟩ := Option.map_eq_some_iff.mp hNext
      rw [if_neg hZero, h.address_entrance hEntrance] at hArrives
      exact ⟨_, hSize, hArrives⟩
  | function name locals =>
    cases hNext
    obtain ⟨hStraight, hMemory⟩ := run_functionCode hFixed cpu name locals
    exact ⟨_, hSize, h.straight hSite hPc hStraight hMemory⟩
  | call name arguments =>
    obtain ⟨target, hEntrance, rfl⟩ := Option.map_eq_some_iff.mp hNext
    have hArrives := Cpu.arrivesAt_call h.load hAt
    rw [h.address_entrance hEntrance, hPc] at hArrives
    exact ⟨_, hSize, hArrives⟩
  | ret =>
    have hArrives := Cpu.arrivesAt_ret h.load hAt
    simp only [Reference.perform] at hNext
    split at hNext
    · cases hNext
      exact ⟨_, hSize, hArrives⟩
    · cases hNext

/-! ### Runs -/

theorem step {machine : Machine} (hImage : machine.image = image) {state next : State}
    (hAgrees : Agrees machine state)
    (hStep : Reference.step .pushUnder (sites options parts) state = some next) :
    ∃ n, 0 < n ∧ Agrees (Machine.step^[n] machine) next := by
  obtain ⟨site, hSite, hAddress, hSize, hPerform⟩ := step_eq_some hStep
  rw [← hAgrees.memory_eq] at hPerform
  obtain ⟨n, hPos, hArrives⟩ :=
    h.perform hSite hSize (hAgrees.pc_eq.trans hAddress.symm) hPerform
  rw [← hImage] at hArrives
  obtain ⟨hPc, hMemory⟩ := Machine.arrives hArrives
  exact ⟨n, hPos, hPc, hMemory⟩

/-- **The machine follows the interpreter** whose pushes raise `SP` first. -/
theorem run {n : Nat} : ∀ {machine : Machine} {state last : State}, machine.image = image →
    Agrees machine state →
      Reference.run .pushUnder (sites options parts) n state = some last →
      ∃ k, n ≤ k ∧ Agrees (Machine.step^[k] machine) last := by
  induction n with
  | zero =>
    intro machine state last _ hAgrees hRun
    cases hRun
    exact ⟨0, Nat.le_refl 0, hAgrees⟩
  | succ n ih =>
    intro machine state last hImage hAgrees hRun
    obtain ⟨next, hStep, hRest⟩ := Option.bind_eq_some_iff.mp hRun
    obtain ⟨j, hPos, hNext⟩ := h.step hImage hAgrees hStep
    obtain ⟨k, hLe, hLast⟩ := ih ((Machine.image_iterate_step machine j).trans hImage) hNext hRest
    refine ⟨k + j, by omega, ?_⟩
    rw [Function.iterate_add_apply]
    exact hLast

/-! ### Where the interpreter stops -/

theorem size_eq_zero_of_end {site : Site} (hSite : site ∈ sites options parts)
    (hEnd : image.rom.size ≤ site.address) : site.size = 0 := by
  obtain ⟨before, behind, hCode, hAddress⟩ := Code.at_site hSite
  have hSize := Image.size_rom h.load
  rw [hCode, Code.size_append, Code.size_append, ← hAddress] at hSize
  have : site.size = Code.size site.code := rfl
  omega

theorem end_of_no_code {address : Nat} (hBoundary : isBoundary (sites options parts) address = true)
    (hNone : ∀ site ∈ sites options parts, site.address = address → site.size = 0) :
    address = image.rom.size := by
  rw [Image.size_rom h.load, programCode, Code.size_append]
  obtain ⟨site, hSite, hHere⟩ := List.any_eq_true.mp hBoundary
  rw [Bool.or_eq_true, decide_eq_true_iff, decide_eq_true_iff] at hHere
  have hSome : ∃ other ∈ sites options parts, other.address = address ∨
      address = Code.size (prologue options) +
        Code.size (inputsCode options.comments {} (programInputs options parts)) := by
    rcases hHere with hHere | hHere
    · exact ⟨site, hSite, Or.inl hHere⟩
    · rcases @next_mem_sitesFrom options.comments _ _ _ _ hSite with hEnd | ⟨other, hOther, hNext⟩
      · exact ⟨site, hSite, Or.inr (hHere.symm.trans hEnd)⟩
      · exact ⟨other, hOther, Or.inl (hNext.trans hHere)⟩
  obtain ⟨other, hOther, hHere | hEnd⟩ := hSome
  · exact eq_end_of_no_code hNone (Or.inr ⟨other, hOther, hHere⟩)
  · exact hEnd

theorem perform_isSome {put : Memory → Word → Memory} {site : Site}
    (hSite : site ∈ sites options parts) {memory : Memory}
    (hRet : site.command = .ret →
      isBoundary (sites options parts) (memory.ret.get back).toNat = true) :
    (Reference.perform put (sites options parts) site memory).isSome = true := by
  have hTarget : ∀ {symbol : String}, site.target? = some symbol → ∀ memory : Memory,
      ((entrance? (sites options parts) symbol).map (State.mk · memory)).isSome = true := by
    intro symbol hSymbol memory
    obtain ⟨other, hOther, hDeclared⟩ := h.targets site hSite symbol hSymbol
    rw [Option.isSome_map]
    exact isSome_entrance? hOther hDeclared
  obtain ⟨scope, command, address⟩ := site
  cases command with
  | goto name => exact hTarget rfl memory
  | call name arguments => exact hTarget rfl _
  | ifGoto name =>
    simp only [Reference.perform]
    split
    · rfl
    · exact hTarget rfl _
  | ret =>
    simp only [Reference.perform]
    rw [if_pos (hRet rfl)]
    rfl
  | _ => rfl

/-- **The interpreter stops** where the program ends, and where a `return` finds an address that is
no boundary. -/
theorem step_eq_none_iff {put : Memory → Word → Memory} {state : State}
    (hBoundary : isBoundary (sites options parts) state.address = true) :
    Reference.step put (sites options parts) state = none ↔
      image.rom.size ≤ state.address ∨
        ∃ site ∈ sites options parts, site.address = state.address ∧ site.command = .ret ∧
          isBoundary (sites options parts) (state.memory.ret.get back).toNat = false := by
  constructor
  · intro hNone
    by_cases hCode : ∀ site ∈ sites options parts, site.address = state.address → site.size = 0
    · exact Or.inl (Nat.le_of_eq (h.end_of_no_code hBoundary hCode).symm)
    · push Not at hCode
      obtain ⟨site, hSite, hAddress, hSize⟩ := hCode
      have hPerform : Reference.step put _ ⟨site.address, state.memory⟩ = _ :=
        step_of_mem hSite (Nat.pos_of_ne_zero hSize) state.memory
      rw [hAddress, hNone] at hPerform
      by_cases hRet : site.command = .ret ∧
          isBoundary (sites options parts) (state.memory.ret.get back).toNat = false
      · exact Or.inr ⟨site, hSite, hAddress, hRet⟩
      · have hBack : site.command = .ret →
            isBoundary (sites options parts) (state.memory.ret.get back).toNat = true := by
          intro hCommand
          simpa [hCommand] using hRet
        have hSome : (Reference.perform put _ site state.memory).isSome = true :=
          h.perform_isSome hSite hBack
        rw [← hPerform] at hSome
        cases hSome
  · rintro (hEnd | ⟨site, hSite, hAddress, hRet, hBack⟩)
    · apply step_eq_none_of_no_code
      intro site hSite hAddress
      exact h.size_eq_zero_of_end hSite (hAddress ▸ hEnd)
    · have hSize : 0 < site.size := by
        rw [Site.size, Site.code, hRet]
        show 0 < Code.size returnCode
        decide
      have hPerform : Reference.step put _ ⟨site.address, state.memory⟩ = _ :=
        step_of_mem hSite hSize state.memory
      rw [hAddress] at hPerform
      rw [hPerform, Reference.perform, hRet]
      simp only [hBack]
      rfl

/-! ### The first command -/

theorem start {machine : Machine} (hImage : machine.image = image) (hCpu : machine.cpu = {}) :
    ∃ n, Agrees (Machine.step^[n] machine) (Reference.start options) := by
  have hAt : Code.At (programCode options parts) (Cpu.pc {}) (prologue options) :=
    ⟨[], inputsCode options.comments {} (programInputs options parts), rfl, rfl⟩
  have hStraight : Code.isStraight (prologue options) = true := by
    unfold prologue
    cases options.bootstrap <;> cases options.comments <;> rfl
  have hMemory : (Code.run image.address (prologue options) {}).memory =
      (Reference.start options).memory := by
    unfold prologue Reference.start
    have hSp := (Image.fixedAddresses h.load).sp
    cases options.bootstrap <;> cases options.comments <;>
      simp [stackCode, hSp, Comp.eval, Operand.value]
  have hArrives := Cpu.arrivesAt_straight h.load hAt hStraight hMemory
  rw [← hImage, ← hCpu] at hArrives
  obtain ⟨hPc, hStart⟩ := Machine.arrives hArrives
  rw [hCpu] at hPc
  exact ⟨Code.size (prologue options), hPc.trans (Nat.zero_add _), hStart⟩

/-! ### A push into the word of `SP` -/

/-- **The machine agrees with a push** exactly if the value does not go into the word of `SP`. -/
theorem push_agrees_iff {site : Site} (hSite : site ∈ sites options parts) (hSize : 0 < site.size)
    {segment : Segment} {index : Word} (hPush : site.command = .push segment index)
    {machine : Machine} (hImage : machine.image = image) (hPc : machine.cpu.pc = site.address) :
    ∃ n next, Reference.step .push (sites options parts) ⟨site.address, machine.cpu.memory⟩ =
        some next ∧ (Machine.step^[n] machine).cpu.pc = next.address ∧
      (Agrees (Machine.step^[n] machine) next ↔
        Memory.cell (machine.cpu.memory.get sp) ≠ Memory.cell sp) := by
  let cell := staticCell (sites options parts) (site.scope.variableSymbol index)
  let value := machine.cpu.memory.read segment index cell
  have hPerform : ∀ put, Reference.step put (sites options parts)
      ⟨site.address, machine.cpu.memory⟩ = some ⟨site.next, put machine.cpu.memory value⟩ := by
    intro put
    rw [step_of_mem hSite hSize, Reference.perform, hPush]
  obtain ⟨n, -, hAgrees⟩ := h.step hImage ⟨hPc, rfl⟩ (hPerform .pushUnder)
  refine ⟨n, _, hPerform .push, hAgrees.pc_eq, ?_⟩
  rw [← Memory.pushUnder_eq_push_iff machine.cpu.memory value]
  constructor
  · intro hPushed
    exact hAgrees.memory_eq.symm.trans hPushed.memory_eq
  · intro hMemory
    exact ⟨hAgrees.pc_eq, hAgrees.memory_eq.trans hMemory⟩

end Linked

/-! ### Programs from source files -/

/-- **The machine follows the reference interpreter**, from its first command on and from every
state, as long as no value is pushed into the word of `SP` itself; it always follows the interpreter
that raises `SP` first.  A push into the word of `SP` leaves the machine with another memory than
the interpreter.  The interpreter goes from boundary to boundary and stops only where the machine is
finished, or where a `return` finds an address that is no boundary. -/
theorem machine_follows_interpreter {options : Options} {sources : List Source}
    {parts : List Part} {code : Code} {machine : Machine}
    (hRead : readSources sources = .ok parts)
    (hTranslate : translate options sources = .ok code)
    (hLoad : Machine.load code = .ok machine)
    (hTargets : ∀ site ∈ sites options parts, ∀ symbol, site.target? = some symbol →
      ∃ other ∈ sites options parts, other.declared? = some symbol)
    (hStatics : ∀ site ∈ sites options parts, ∀ symbol, site.static? = some symbol →
      symbol ∉ Code.labels code) :
    (∃ n, Agrees (Machine.step^[n] machine) (start options)) ∧
    (∀ here : Machine, here.image = machine.image → ∀ state, Agrees here state →
      ∀ n last, run .push (sites options parts) n state = some last →
        (∀ m < n, ∀ middle, run .push (sites options parts) m state = some middle →
          middle.Clear (sites options parts)) →
        ∃ k, n ≤ k ∧ Agrees (Machine.step^[k] here) last) ∧
    (∀ here : Machine, here.image = machine.image → ∀ state, Agrees here state →
      ∀ n last, run .pushUnder (sites options parts) n state = some last →
        ∃ k, n ≤ k ∧ Agrees (Machine.step^[k] here) last) ∧
    (∀ site ∈ sites options parts, 0 < site.size →
      ∀ segment index, site.command = .push segment index →
        ∀ here : Machine, here.image = machine.image → here.cpu.pc = site.address →
          ∃ n next, step .push (sites options parts) ⟨site.address, here.cpu.memory⟩ = some next ∧
            (Machine.step^[n] here).cpu.pc = next.address ∧
            (Agrees (Machine.step^[n] here) next ↔
              Memory.cell (here.cpu.memory.get sp) ≠ Memory.cell sp)) ∧
    ∀ state, isBoundary (sites options parts) state.address = true →
      (∀ next, step .push (sites options parts) state = some next →
        isBoundary (sites options parts) next.address = true) ∧
      (step .push (sites options parts) state = none ↔
        machine.image.rom.size ≤ state.address ∨
          ∃ site ∈ sites options parts, site.address = state.address ∧ site.command = .ret ∧
            isBoundary (sites options parts) (state.memory.ret.get back).toNat = false) := by
  obtain rfl := translate_eq_ok hRead hTranslate
  obtain ⟨hImage, hCpu⟩ := Machine.load_eq_ok hLoad
  have h : Linked options parts machine.image := ⟨hImage, hTargets, hStatics⟩
  refine ⟨h.start rfl hCpu, ?_, ?_, ?_, ?_⟩
  · intro here hHere state hAgrees n last hRun hClear
    exact h.run hHere hAgrees ((run_pushUnder hClear).trans hRun)
  · intro here hHere state hAgrees n last hRun
    exact h.run hHere hAgrees hRun
  · intro site hSite hSize segment index hPush here hHere hPc
    exact h.push_agrees_iff hSite hSize hPush hHere hPc
  · intro state hBoundary
    exact ⟨fun next hStep => isBoundary_of_step hStep, h.step_eq_none_iff hBoundary⟩

/-- The machine comes through the call of the entry point and a push of a static variable. -/
theorem entry_point_reached :
    ∃ code machine n, translate {} [.ofText "Sys" "function Sys.init 0\npush static 0"] = .ok code ∧
      Machine.load code = .ok machine ∧ (Machine.step^[n] machine).cpu.pc = 54 ∧
      (Machine.step^[n] machine).cpu.memory.get sp = 262 := by
  let parts : List Part :=
    [⟨"Sys", [⟨⟨"Sys.vm", 1⟩, .function "Sys.init" 0⟩, ⟨⟨"Sys.vm", 2⟩, .push .static 0⟩]⟩]
  have hRead : readSources [.ofText "Sys" "function Sys.init 0\npush static 0"] = .ok parts := rfl
  have hNodup : (Code.labels (programCode {} parts)).Nodup := by decide
  have hTranslate := translate_isOk hRead (by decide) hNodup
  obtain ⟨image, hImage⟩ := Image.load_isOk hNodup (by decide) (by decide) (by decide)
  have hLoad := Machine.load_of_image hImage
  have hTargets : ∀ site ∈ sites {} parts, ∀ symbol ∈ site.target?,
      ∃ other ∈ sites {} parts, other.declared? = some symbol := by decide
  have hStatics : ∀ site ∈ sites {} parts, ∀ symbol ∈ site.static?,
      symbol ∉ Code.labels (programCode {} parts) := by decide
  obtain ⟨⟨n, hStart⟩, hFollows, -⟩ :=
    machine_follows_interpreter hRead hTranslate hLoad hTargets hStatics
  have hClear : ∀ m < 2, ∀ middle ∈ run .push (sites {} parts) m (start {}),
      ∀ site ∈ sites {} parts, site.address = middle.address →
        ∀ i < puts site.command,
          Memory.cell (middle.memory.get sp + UInt16.ofNat i) ≠ Memory.cell sp := by
    decide +kernel
  have hLast : ∀ last ∈ run .push (sites {} parts) 2 (start {}),
      last.address = 54 ∧ last.memory.get sp = 262 := by
    decide +kernel
  cases hRun : run .push (sites {} parts) 2 (start {}) with
  | none =>
    have hSome : (run .push (sites {} parts) 2 (start {})).isSome = true := by decide +kernel
    rw [hRun] at hSome
    cases hSome
  | some last =>
    obtain ⟨k, -, hAgrees⟩ :=
      hFollows _ (Machine.image_iterate_step _ n) _ hStart 2 last hRun hClear
    obtain ⟨hAddress, hSp⟩ := hLast last hRun
    rw [← Function.iterate_add_apply] at hAgrees
    exact ⟨_, _, k + n, hTranslate, hLoad, hAgrees.pc_eq.trans hAddress, hAgrees.memory_eq ▸ hSp⟩

/-- A program whose first command is a push into the word of `SP`: the machine never has the memory
that the interpreter has behind the push. -/
theorem push_into_sp_not_followed :
    let options : Options := ⟨false, false⟩
    let sources : List Source := [.ofText "Main" "push constant 7"]
    ∃ parts code machine next, readSources sources = .ok parts ∧
      translate options sources = .ok code ∧ Machine.load code = .ok machine ∧
      (∀ site ∈ sites options parts, ∀ symbol, site.target? = some symbol →
        ∃ other ∈ sites options parts, other.declared? = some symbol) ∧
      (∀ site ∈ sites options parts, ∀ symbol, site.static? = some symbol →
        symbol ∉ Code.labels code) ∧
      Agrees machine (start options) ∧
      step .push (sites options parts) (start options) = some next ∧
      ∀ n, ¬ Agrees (Machine.step^[n] machine) next := by
  intro options sources
  let parts : List Part := [⟨"Main", [⟨⟨"Main.vm", 1⟩, .push .constant 7⟩]⟩]
  have hRead : readSources sources = .ok parts := rfl
  have hNodup : (Code.labels (programCode options parts)).Nodup := by decide
  have hTranslate := translate_isOk hRead (by decide) hNodup
  obtain ⟨image, hImage⟩ := Image.load_isOk hNodup (by decide) (by decide) (by decide)
  have hTargets : ∀ site ∈ sites options parts, ∀ symbol ∈ site.target?,
      ∃ other ∈ sites options parts, other.declared? = some symbol := by decide
  have hStatics : ∀ site ∈ sites options parts, ∀ symbol ∈ site.static?,
      symbol ∉ Code.labels (programCode options parts) := by decide
  have h : Linked options parts image := ⟨hImage, hTargets, hStatics⟩
  let machine : Machine := ⟨image, {}⟩
  let site : Site := ⟨{ file := "Main" }, .push .constant 7, 0⟩
  have hSite : site ∈ sites options parts := by decide
  have hSize : 0 < site.size := by decide
  obtain ⟨m, next, hNext, hPc, hAgrees⟩ :=
    h.push_agrees_iff hSite hSize rfl (rfl : machine.image = image) rfl
  refine ⟨parts, _, machine, next, hRead, hTranslate, Machine.load_of_image hImage, hTargets,
    hStatics, ⟨rfl, rfl⟩, hNext, fun n hThere => ?_⟩
  have hAddress : next.address = image.rom.size := by
    have hPerform : step .push (sites options parts) ⟨site.address, machine.cpu.memory⟩ = _ :=
      step_of_mem hSite hSize machine.cpu.memory
    rw [hNext] at hPerform
    rw [Image.size_rom hImage, Option.some.inj hPerform]
    show site.next = Code.size (programCode options parts)
    decide
  -- The program ends behind the push, so the machine has one memory there.
  have hFinished : ∀ k, (Machine.step^[k] machine).cpu.pc = next.address →
      ((Cpu.step image.rom)^[k] machine.cpu).isFinished image.rom = true := by
    intro k hk
    rw [Machine.iterate_step] at hk
    exact decide_eq_true (Nat.le_of_eq (hAddress.symm.trans hk.symm))
  have hSame : Machine.step^[n] machine = Machine.step^[m] machine := by
    rw [Machine.iterate_step, Machine.iterate_step]
    exact congrArg (Machine.mk image)
      (Cpu.iterate_unique_of_isFinished (hFinished n hThere.pc_eq) (hFinished m hPc))
  rw [hSame] at hThere
  exact hAgrees.mp hThere rfl

end HackVm
