import HackVm.Proofs.Effect
import HackVm.Proofs.Site

/-!
# The reference interpreter

An interpreter for commands that knows nothing of their code but how much room it takes.  Its state
is the address of the next command and the memory; a step gives the command there its effect and
goes on behind it, at the command that declares the symbol it jumps to, or at the address that the
frame has saved.  Commands without code are not seen, since the next command has the same address.

The interpreter takes the operation that puts a value on the stack as a parameter: `Memory.push`
makes it the interpreter of the stack language.  With `Memory.pushUnder` it takes the same steps
from every state whose command puts nothing into the word of `SP` (`Reference.State.Clear`).
-/

namespace HackVm

/-! ### The symbols of a program -/

/-- The address of the command that declares a symbol. -/
def entrance? (sites : List Site) (symbol : String) : Option Nat :=
  (sites.find? (·.declared? = some symbol)).map Site.address

/-- The symbols of the static variables, each once, in the order in which they first occur. -/
def statics (sites : List Site) : List String :=
  (sites.filterMap Site.static?).eraseDups

/-- The address of a static variable. -/
def staticCell (sites : List Site) (symbol : String) : Word :=
  UInt16.ofNat (variableBase + (statics sites).idxOf symbol)

/-- Whether an address is one where a command begins or ends. -/
def isBoundary (sites : List Site) (address : Nat) : Bool :=
  sites.any fun site => site.address = address || site.next = address

theorem isBoundary_address {sites : List Site} {site : Site} (h : site ∈ sites) :
    isBoundary sites site.address = true :=
  List.any_eq_true.mpr ⟨site, h, by simp⟩

theorem isBoundary_next {sites : List Site} {site : Site} (h : site ∈ sites) :
    isBoundary sites site.next = true :=
  List.any_eq_true.mpr ⟨site, h, by simp⟩

theorem entrance?_eq_some {sites : List Site} {symbol : String} {address : Nat}
    (h : entrance? sites symbol = some address) :
    ∃ site ∈ sites, site.declared? = some symbol ∧ site.address = address := by
  obtain ⟨site, hFind, hAddress⟩ := Option.map_eq_some_iff.mp h
  exact ⟨site, List.mem_of_find?_eq_some hFind, by simpa using List.find?_some hFind, hAddress⟩

theorem isSome_entrance? {sites : List Site} {site : Site} {symbol : String} (h : site ∈ sites)
    (hSymbol : site.declared? = some symbol) : (entrance? sites symbol).isSome = true := by
  rw [entrance?, Option.isSome_map, List.find?_isSome]
  exact ⟨site, h, by simpa using hSymbol⟩

namespace Reference

/-- A state between two commands. -/
structure State where
  address : Nat
  memory : Memory
  deriving DecidableEq

/-- The state in which a program starts. -/
def start (options : Options) : State where
  address := Code.size (prologue options)
  memory := if options.bootstrap then Memory.zeros.set Register.sp stackBase else Memory.zeros

section Interpreter

variable (put : Memory → Word → Memory) (sites : List Site)

/-- What a command does, and where the program goes on. -/
def perform (site : Site) (memory : Memory) : Option State :=
  match site.command with
  | .push segment index =>
    let cell := staticCell sites (site.scope.variableSymbol index)
    some ⟨site.next, put memory (memory.read segment index cell)⟩
  | .pop segment index =>
    let cell := staticCell sites (site.scope.variableSymbol index)
    some ⟨site.next, memory.popInto segment index cell⟩
  | .unary op => some ⟨site.next, memory.unary op⟩
  | .binary op => some ⟨site.next, memory.binary op⟩
  | .compare op => some ⟨site.next, memory.compare op⟩
  | .label _ => some ⟨site.next, memory⟩
  | .goto name => (entrance? sites (site.scope.labelSymbol name)).map (⟨·, memory⟩)
  | .ifGoto name =>
    let (value, rest) := memory.pop
    if value = 0 then some ⟨site.next, rest⟩
    else (entrance? sites (site.scope.labelSymbol name)).map (⟨·, rest⟩)
  | .function _ locals => some ⟨site.next, memory.enter put locals⟩
  | .call name arguments =>
    (entrance? sites name).map (⟨·, memory.call put (UInt16.ofNat site.next) arguments⟩)
  | .ret =>
    let rest := memory.ret
    let back := (rest.get Register.back).toNat
    if isBoundary sites back then some ⟨back, rest⟩ else none

/-- Performs the command that has its code at the address. -/
def step (state : State) : Option State := do
  let site ← sites.find? fun site => site.address = state.address && 0 < site.size
  perform put sites site state.memory

/-- Performs a number of commands. -/
def run : Nat → State → Option State
  | 0, state => some state
  | n + 1, state => step put sites state >>= run n

end Interpreter

variable {put : Memory → Word → Memory} {sites : List Site}

theorem step_eq_some {state next : State} (h : step put sites state = some next) :
    ∃ site ∈ sites, site.address = state.address ∧ 0 < site.size ∧
      perform put sites site state.memory = some next := by
  obtain ⟨site, hFind, hPerform⟩ := Option.bind_eq_some_iff.mp h
  have hSite := List.find?_some hFind
  rw [Bool.and_eq_true, decide_eq_true_iff, decide_eq_true_iff] at hSite
  exact ⟨site, List.mem_of_find?_eq_some hFind, hSite.1, hSite.2, hPerform⟩

/-- A step leads from boundary to boundary. -/
theorem isBoundary_of_step {state next : State} (h : step put sites state = some next) :
    isBoundary sites next.address = true := by
  obtain ⟨site, hMem, -, -, hPerform⟩ := step_eq_some h
  have hJump : ∀ {symbol : String} {memory : Memory},
      (entrance? sites symbol).map (State.mk · memory) = some next →
        isBoundary sites next.address = true := by
    intro symbol memory hEntrance
    obtain ⟨address, hAddress, rfl⟩ := Option.map_eq_some_iff.mp hEntrance
    obtain ⟨other, hOther, -, rfl⟩ := entrance?_eq_some hAddress
    exact isBoundary_address hOther
  have hNext : ∀ {memory : Memory}, some (State.mk site.next memory) = some next →
      isBoundary sites next.address = true := by
    rintro memory ⟨⟩
    exact isBoundary_next hMem
  rw [perform] at hPerform
  cases hCommand : site.command with
  | goto name => rw [hCommand] at hPerform; exact hJump hPerform
  | call name arguments => rw [hCommand] at hPerform; exact hJump hPerform
  | ifGoto name =>
    simp only [hCommand] at hPerform
    split at hPerform
    · exact hNext hPerform
    · exact hJump hPerform
  | ret =>
    simp only [hCommand] at hPerform
    split at hPerform
    · cases hPerform
      assumption
    · cases hPerform
  | _ => rw [hCommand] at hPerform; exact hNext hPerform

/-! ### The order of the two writes of a push -/

/-- How many words a command puts on the stack, one after the other. -/
def puts : Command → Nat
  | .push .. => 1
  | .function _ locals => locals.toNat
  | .call .. => 5
  | _ => 0

/-- The command at the address puts nothing into the word of `SP`. -/
def State.Clear (sites : List Site) (state : State) : Prop :=
  ∀ site ∈ sites, site.address = state.address → state.memory.Clear (puts site.command)

theorem perform_pushUnder {site : Site} {memory : Memory} (h : memory.Clear (puts site.command)) :
    perform .pushUnder sites site memory = perform .push sites site memory := by
  obtain ⟨scope, command, address⟩ := site
  cases command with
  | push segment index =>
    simp only [perform]
    rw [(Memory.pushUnder_eq_push_iff memory _).mpr (Memory.Clear.head h)]
  | function name locals =>
    simp only [perform]
    rw [Memory.enter_pushUnder h]
  | call name arguments =>
    simp only [perform]
    rw [Memory.call_pushUnder h]
  | _ => rfl

theorem step_pushUnder {state : State} (h : state.Clear sites) :
    step .pushUnder sites state = step .push sites state := by
  rw [step, step]
  cases hFind : sites.find? fun site => site.address = state.address && 0 < site.size with
  | none => rfl
  | some site =>
    have hSite := List.find?_some hFind
    rw [Bool.and_eq_true, decide_eq_true_iff] at hSite
    exact perform_pushUnder (h site (List.mem_of_find?_eq_some hFind) hSite.1)

theorem run_pushUnder {n : Nat} : ∀ {state : State},
    (∀ m < n, ∀ middle, run .push sites m state = some middle → middle.Clear sites) →
      run .pushUnder sites n state = run .push sites n state := by
  induction n with
  | zero => intro state _; rfl
  | succ n ih =>
    intro state h
    rw [run, run, step_pushUnder (h 0 (Nat.succ_pos n) state rfl)]
    cases hStep : step .push sites state with
    | none => rfl
    | some next =>
      refine ih fun m hm middle hRun => h (m + 1) (Nat.succ_lt_succ hm) middle ?_
      rw [run, hStep]
      exact hRun

/-! ### The steps of a program -/

section Program

variable {options : Options} {parts : List Part}

/-- The command with code that stands at an address is the one that is performed. -/
theorem step_of_mem {site : Site} (h : site ∈ HackVm.sites options parts) (hSize : 0 < site.size)
    (memory : Memory) : step put (HackVm.sites options parts) ⟨site.address, memory⟩ =
      perform put (HackVm.sites options parts) site memory := by
  rw [step]
  cases hFind : (HackVm.sites options parts).find?
      fun other => other.address = site.address && 0 < other.size with
  | none =>
    have := List.find?_eq_none.mp hFind site h
    simp [hSize] at this
  | some other =>
    have hOther := List.find?_some hFind
    rw [Bool.and_eq_true, decide_eq_true_iff, decide_eq_true_iff] at hOther
    rw [site_unique h (List.mem_of_find?_eq_some hFind) hSize hOther.2 hOther.1.symm]
    rfl

theorem step_eq_none_of_no_code {state : State}
    (h : ∀ site ∈ sites, site.address = state.address → site.size = 0) :
    step put sites state = none := by
  have hFind : (sites.find? fun site => site.address = state.address && 0 < site.size) = none := by
    apply List.find?_eq_none.mpr
    intro site hSite
    simpa using fun hAddress => h site hSite hAddress
  rw [step, hFind]
  rfl

end Program

end Reference

end HackVm
