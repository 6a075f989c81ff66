import HackVm.Proofs.DistinctLabels
import HackVm.Proofs.Site

/-!
# What the bootstrap changes

A program with a bootstrap calls the entry point before its first file, so each call in the files has a
number greater by one.  The number of a call stands in its code twice: where the point to return to
is pushed, and where it is declared.  A label of the source, or a function, may be written like such a
point and does not change.  So the two occurrences are not told by their text, they are marked in the
code of the call (`Marked`).

* `callCode_eq_body`: the code of a call is marked at both ends, and nowhere else.
* `Command.emitted_skipCalls`: a command after more calls leaves the same code, renumbered where it
  is marked.
* `inputsCode_skipCalls`: so do all the commands of a program.
* `bootstrap_only_prepends`: the program with a bootstrap and the program without one.
-/

namespace HackVm

open Instruction

/-! ### Marked code -/

/-- The label of the point that a call returns to, by the function and the number of the call. -/
def returnLabel (function : String) (n : Nat) : String :=
  function ++ "$ret." ++ n.repr

theorem Scope.returnSymbol_eq (scope : Scope) :
    scope.returnSymbol = returnLabel scope.function scope.calls := by
  apply String.toList_injective
  simp [returnSymbol, labelSymbol, returnLabel]

/-- An instruction of a program, where the points that calls return to are marked. -/
inductive Marked
  /-- An instruction that names no such point for its call, whatever it is written like. -/
  | plain (i : Instruction)
  /-- Loads the address of the point that a call returns to. -/
  | pushed (function : String) (n : Nat)
  /-- Declares the point that a call returns to. -/
  | declared (function : String) (n : Nat)
  deriving DecidableEq, Repr

/-- The instruction, if there are so many more calls before. -/
def Marked.instruction (more : Nat) : Marked → Instruction
  | plain i => i
  | pushed function n => symbol (returnLabel function (n + more))
  | declared function n => label (returnLabel function (n + more))

/-- Marking nothing changes nothing. -/
theorem map_instruction_plain (more : Nat) (code : Code) :
    (code.map Marked.plain).map (·.instruction more) = code := by
  rw [List.map_map]
  exact List.map_id code

/-- The code of a call between the first instruction and the last. -/
def callBody (name : String) (arguments : Word) : Code :=
  set .D (.val .A) :: pushD ++ savedRegisters.flatMap saveRegister ++
    [symbol "SP", set .D (.val .M), number frameSize, set .D (.sub .A), number arguments,
      set .D (.sub .A), symbol "ARG", set .M .d] ++
    [symbol "SP", set .D (.val .M), symbol "LCL", set .M .d] ++ [symbol name, branch .zero .JMP]

/-- The point to return to stands at both ends of a call. -/
theorem callCode_eq_body (name : String) (arguments : Word) (back : String) :
    callCode name arguments back = symbol back :: callBody name arguments ++ [label back] := by
  simp [callCode, callBody]

/-- The code of a call, marked at both ends. -/
def markedCall (function : String) (n : Nat) (name : String) (arguments : Word) : List Marked :=
  .pushed function n :: (callBody name arguments).map .plain ++ [.declared function n]

theorem map_instruction_markedCall (more : Nat) (function : String) (n : Nat) (name : String)
    (arguments : Word) : (markedCall function n name arguments).map (·.instruction more) =
      callCode name arguments (returnLabel function (n + more)) := by
  rw [callCode_eq_body, markedCall, List.map_append, List.map_cons, map_instruction_plain]
  rfl

namespace Site

/-- The code of a command, marked where the command is a call. -/
def marked (site : Site) : List Marked :=
  match site.command with
  | .call name arguments => markedCall site.scope.function site.scope.calls name arguments
  | _ => site.code.map .plain

/-- The code of a command behind the comment that shows the command, if comments are kept. -/
def markedWithComment (comments : Bool) (site : Site) : List Marked :=
  (if comments then [.plain (comment site.command.text)] else []) ++ site.marked

end Site

/-! ### More calls before -/

/-- The scope with so many more calls before. -/
def Scope.skipCalls (scope : Scope) (more : Nat) : Scope :=
  { scope with calls := scope.calls + more }

section SkipCalls

variable (scope : Scope) (more : Nat)

theorem Segment.place_skipCalls (segment : Segment) (index : Word) :
    segment.place (scope.skipCalls more) index = segment.place scope index := by
  cases segment <;> rfl

theorem pushCode_skipCalls (segment : Segment) (index : Word) :
    pushCode (scope.skipCalls more) segment index = pushCode scope segment index := by
  rw [pushCode, pushCode, Segment.read, Segment.read, Segment.place_skipCalls]

theorem popCode_skipCalls (segment : Segment) (index : Word) :
    popCode (scope.skipCalls more) segment index = popCode scope segment index := by
  rw [popCode, popCode, Segment.target, Segment.target, Segment.place_skipCalls]

theorem Scope.after_skipCalls (command : Command) :
    (scope.skipCalls more).after command = (scope.after command).skipCalls more := by
  cases command with
  | push segment index => rw [after_push, after_push]
  | pop segment index =>
    rw [after, after, Command.code, Command.code, popCode_skipCalls]
    cases popCode scope segment index <;> rfl
  | call name arguments =>
    exact congrArg (fun calls => { scope with calls }) (Nat.add_right_comm scope.calls more 1)
  | _ => rfl

/-- **A command after more calls** leaves the same code, renumbered where it is marked. -/
theorem Command.emitted_skipCalls (command : Command) (address : Nat) :
    command.emitted (scope.skipCalls more) =
      (Site.mk scope command address).marked.map (·.instruction more) := by
  cases command with
  | push segment index =>
    rw [emitted, Command.code, pushCode_skipCalls, Site.marked, map_instruction_plain, Site.code,
      emitted, Command.code]
    cases pushCode scope segment index <;> rfl
  | pop segment index =>
    rw [emitted, Command.code, popCode_skipCalls, Site.marked, map_instruction_plain, Site.code,
      emitted, Command.code]
    cases popCode scope segment index <;> rfl
  | call name arguments =>
    have hCall : (call name arguments).emitted (scope.skipCalls more) =
        callCode name arguments (scope.skipCalls more).returnSymbol := rfl
    rw [hCall, Scope.returnSymbol_eq, Site.marked, map_instruction_markedCall]
    rfl
  | _ => exact (map_instruction_plain more _).symm

theorem Input.code_skipCalls (comments : Bool) (s : Statement) (address : Nat) :
    (Input.statement s).code comments (scope.skipCalls more) =
      ((Site.mk scope s.command address).markedWithComment comments).map (·.instruction more) := by
  rw [Input.code, Command.emitted_skipCalls scope more s.command address, Site.markedWithComment,
    List.map_append]
  cases comments <;> rfl

end SkipCalls

/-- **The commands of a program after more calls** leave the same code, renumbered where it is
marked. -/
theorem inputsCode_skipCalls (comments : Bool) (more : Nat) (inputs : List Input) :
    ∀ (scope : Scope) (address : Nat), inputsCode comments (scope.skipCalls more) inputs =
      ((sitesFrom scope address inputs).flatMap (·.markedWithComment comments)).map
        (·.instruction more) := by
  induction inputs with
  | nil => exact fun _ _ => rfl
  | cons input rest ih =>
    intro scope address
    cases input with
    | file name => exact ih (scope.inFile name) address
    | statement s =>
      rw [inputsCode, Input.code_skipCalls scope more comments s address, Input.after,
        Scope.after_skipCalls, ih _ (Site.mk scope s.command address).next, ← List.map_append]
      rfl

/-! ### Two programs -/

/-- What a program with a bootstrap starts with: the stack is set up and the entry point is called. -/
def bootstrapCode (comments : Bool) : Code :=
  (if comments then [comment "bootstrap"] else []) ++
    [number 256, set .D (.val .A), symbol "SP", set .M .d] ++
    (if comments then [comment "call Sys.init 0"] else []) ++
    callCode "Sys.init" 0 "Sys.init$ret.0"

/-- The code of a program, where the points that calls return to are marked. -/
def markedProgram (comments : Bool) (parts : List Part) : List Marked :=
  (sites ⟨false, comments⟩ parts).flatMap (·.markedWithComment comments)

theorem programCode_without_bootstrap (comments : Bool) (parts : List Part) :
    programCode ⟨false, comments⟩ parts =
      (markedProgram comments parts).map (·.instruction 0) :=
  inputsCode_skipCalls comments 0 (inputs parts) {} 0

theorem programCode_with_bootstrap (comments : Bool) (parts : List Part) :
    programCode ⟨true, comments⟩ parts =
      bootstrapCode comments ++ (markedProgram comments parts).map (·.instruction 1) := by
  have hBlock : prologue ⟨true, comments⟩ ++
      (Input.statement ⟨⟨"", 0⟩, .call entryPoint 0⟩).code comments {} = bootstrapCode comments := by
    cases comments <;> decide
  have hFiles := inputsCode_skipCalls comments 1 (inputs parts) {} 0
  rw [← hBlock, markedProgram, sites, List.append_assoc]
  exact congrArg (fun code => prologue _ ++ (Input.code comments {} _ ++ code)) hFiles

/-- **The bootstrap is only prepended.**  Where the files are accepted with a bootstrap and without one,
the program with the bootstrap is the block that sets up the stack and calls the entry point, and then
the program without it, in which the number of each call is one more where its point to return to is
pushed and where it is declared, and nothing else is changed. -/
theorem bootstrap_only_prepends {comments : Bool} {sources : List Source} {off on : Code}
    (hOff : translate ⟨false, comments⟩ sources = .ok off)
    (hOn : translate ⟨true, comments⟩ sources = .ok on) :
    ∃ parts, readSources sources = .ok parts ∧
      off = (markedProgram comments parts).map (·.instruction 0) ∧
      on = bootstrapCode comments ++ (markedProgram comments parts).map (·.instruction 1) := by
  cases hRead : readSources sources with
  | error error =>
    rw [translate, hRead] at hOn
    cases hOn
  | ok parts =>
    refine ⟨parts, rfl, ?_, ?_⟩
    · rw [translate_eq_ok hRead hOff, programCode_without_bootstrap]
    · rw [translate_eq_ok hRead hOn, programCode_with_bootstrap]

/-- A label of the source that is written like the point that a call returns to. -/
theorem lookalike_label_kept :
    ∃ off on, translate ⟨false, true⟩ [.ofText "Sys" "label ret.7\ncall Sys.init 0\ngoto ret.7"] =
        .ok off ∧
      translate ⟨true, true⟩ [.ofText "Sys" "label ret.7\ncall Sys.init 0\ngoto ret.7"] = .ok on ∧
      Code.labels off = ["Sys.init$ret.7", "Sys.init$ret.0"] ∧
      Code.labels on = ["Sys.init$ret.0", "Sys.init$ret.7", "Sys.init$ret.1"] := by
  let parts : List Part := [⟨"Sys", [⟨⟨"Sys.vm", 1⟩, .label "ret.7"⟩,
    ⟨⟨"Sys.vm", 2⟩, .call "Sys.init" 0⟩, ⟨⟨"Sys.vm", 3⟩, .goto "ret.7"⟩]⟩]
  have hRead : readSources [.ofText "Sys" "label ret.7\ncall Sys.init 0\ngoto ret.7"] =
      .ok parts := rfl
  have hOff := translate_isOk hRead (by decide)
    (show (Code.labels (programCode ⟨false, true⟩ parts)).Nodup by decide)
  have hOn := translate_isOk hRead (by decide)
    (show (Code.labels (programCode ⟨true, true⟩ parts)).Nodup by decide)
  obtain ⟨others, hOthers, hOffCode, hOnCode⟩ := bootstrap_only_prepends hOff hOn
  obtain rfl : parts = others := Except.ok.inj (hRead.symm.trans hOthers)
  refine ⟨_, _, hOff, hOn, ?_, ?_⟩
  · rw [hOffCode]
    decide
  · rw [hOnCode]
    decide

end HackVm
