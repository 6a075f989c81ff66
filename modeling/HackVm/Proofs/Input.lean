import HackVm.Program

/-!
# What a session leaves in its code

A session is fed with inputs: a file to go on with, or a statement to translate (`Session.Input`).
Whatever the answer is, the input leaves code and a scope behind, and both follow from the scope it
found alone: a command that misuses a segment leaves nothing (`Command.emitted`, `Scope.after`), and
a label that is taken leaves the code that declares it.

* `Session.code_feed`, `Session.scope_feed`: what one input does to the code and the scope of a
  session, for every session and every input.
* `Session.code_feedAll`: a run without errors adds the code of its inputs, `inputsCode`.
* `Session.code_feedEach`: so does a run that goes on after errors.
* `Session.translateParts_eq_feedAll`: the translation of a program is such a run.
* `translateParts_eq_ok`: so the code of a program is `programCode`, where the call of the
  entry point is an input like any other.
-/

namespace HackVm

/-! ### What a command leaves -/

/-- The code that a command leaves: none if it misuses a segment. -/
def Command.emitted (command : Command) (scope : Scope) : Code :=
  match command.code scope with
  | .ok (code, _) => code
  | .error _ => []

/-- The scope that a command leaves: the one it found if it misuses a segment. -/
def Scope.after (scope : Scope) (command : Command) : Scope :=
  match command.code scope with
  | .ok (_, next) => next
  | .error _ => scope

theorem Command.emitted_of_ok {command : Command} {scope next : Scope} {code : Code}
    (h : command.code scope = .ok (code, next)) : command.emitted scope = code := by
  simp [Command.emitted, h]

theorem Command.emitted_push {scope : Scope} {segment : Segment} {index : Word} {code : Code}
    (h : pushCode scope segment index = .ok code) : (push segment index).emitted scope = code := by
  rw [emitted, Command.code, h]
  rfl

theorem Command.emitted_pop {scope : Scope} {segment : Segment} {index : Word} {code : Code}
    (h : popCode scope segment index = .ok code) : (pop segment index).emitted scope = code := by
  rw [emitted, Command.code, h]
  rfl

theorem Scope.after_push (scope : Scope) (segment : Segment) (index : Word) :
    scope.after (.push segment index) = scope := by
  rw [after, Command.code]
  cases pushCode scope segment index <;> rfl

/-- A push that leaves code has read its segment. -/
theorem Command.pushCode_of_emitted {scope : Scope} {segment : Segment} {index : Word}
    (h : (push segment index).emitted scope ≠ []) :
    pushCode scope segment index = .ok ((push segment index).emitted scope) := by
  cases hCode : pushCode scope segment index with
  | ok code =>
    simp only [emitted, Command.code, hCode]
    rfl
  | error fault =>
    simp only [emitted, Command.code, hCode] at h
    exact absurd rfl h

/-- A pop that leaves code has found its target. -/
theorem Command.popCode_of_emitted {scope : Scope} {segment : Segment} {index : Word}
    (h : (pop segment index).emitted scope ≠ []) :
    popCode scope segment index = .ok ((pop segment index).emitted scope) := by
  cases hCode : popCode scope segment index with
  | ok code =>
    simp only [emitted, Command.code, hCode]
    rfl
  | error fault =>
    simp only [emitted, Command.code, hCode] at h
    exact absurd rfl h

/-! ### Inputs -/

/-- What a session is fed with. -/
inductive Input
  | file (name : String)
  | statement (statement : Statement)
  deriving DecidableEq, Repr

/-- The inputs that the files of a program are. -/
def inputs (parts : List Part) : List Input :=
  parts.flatMap fun part => .file part.name :: part.statements.map .statement

namespace Input

/-- The scope behind an input. -/
def after (scope : Scope) : Input → Scope
  | file name => scope.inFile name
  | statement s => scope.after s.command

/-- The code of an input, with a comment that shows the command if comments are kept. -/
def code (comments : Bool) (scope : Scope) : Input → Code
  | file _ => []
  | statement s =>
    (if comments then [.comment s.command.text] else []) ++ s.command.emitted scope

/-- What is told of code without its comments is not changed by them. -/
theorem filterMap_code {β : Type} {f : Instruction → Option β}
    (hf : ∀ text, f (.comment text) = none) (comments : Bool) (scope : Scope) (s : Statement) :
    ((statement s).code comments scope).filterMap f =
      (s.command.emitted scope).filterMap f := by
  rw [code, List.filterMap_append]
  cases comments
  · rfl
  · rw [if_pos rfl, List.filterMap_cons_none (hf _)]
    rfl

theorem labels_code (comments : Bool) (scope : Scope) (s : Statement) :
    Code.labels ((statement s).code comments scope) = Code.labels (s.command.emitted scope) :=
  filterMap_code (fun _ => rfl) comments scope s

end Input

/-- The code of inputs, one after the other. -/
def inputsCode (comments : Bool) (scope : Scope) : List Input → Code
  | [] => []
  | input :: rest => input.code comments scope ++ inputsCode comments (input.after scope) rest

/-- The scope behind inputs. -/
def inputsAfter (scope : Scope) (inputs : List Input) : Scope :=
  inputs.foldl Input.after scope

namespace Session

/-- Takes an input. -/
def feed (session : Session) : Input → Session × Option Error
  | .file name => (session.inFile name, none)
  | .statement s => session.translate s

/-- Takes inputs up to the first that fails. -/
def feedAll (session : Session) : List Input → Session × Option Error
  | [] => (session, none)
  | input :: rest =>
    match session.feed input with
    | (session, some error) => (session, some error)
    | (session, none) => session.feedAll rest

/-! ### One input -/

theorem scope_feed (session : Session) (input : Input) :
    (session.feed input).1.scope = input.after session.scope := by
  cases input with
  | file name => rfl
  | statement s =>
    rw [feed, translate, Input.after, Scope.after]
    cases hc : s.command.code session.scope <;> rfl

theorem comments_feed (session : Session) (input : Input) :
    (session.feed input).1.listing.comments = session.listing.comments := by
  cases input with
  | file name => rfl
  | statement s =>
    rw [feed, translate]
    have hComment :
        (session.listing.comment s.command.text).comments = session.listing.comments := by
      unfold Listing.comment
      split <;> rfl
    cases hc : s.command.code session.scope <;> exact hComment

/-- **Every input adds its code**, whether the session takes it or not. -/
theorem code_feed (session : Session) (input : Input) :
    (session.feed input).1.listing.code =
      session.listing.code ++ input.code session.listing.comments session.scope := by
  cases input with
  | file name => simp [feed, inFile, Input.code]
  | statement s =>
    rw [feed, translate, Input.code, Command.emitted]
    cases hc : s.command.code session.scope with
    | error fault => simp only [Listing.code_comment, List.append_nil]
    | ok pair =>
      simp only [declareLabels, Listing.code_append, Listing.code_comment, List.append_assoc]

/-! ### Runs without errors -/

theorem feedAll_cons_eq_none {session last : Session} {input : Input} {rest : List Input} :
    session.feedAll (input :: rest) = (last, none) ↔
      (session.feed input).2 = none ∧ (session.feed input).1.feedAll rest = (last, none) := by
  rw [feedAll]
  rcases session.feed input with ⟨next, _ | error⟩ <;> simp

theorem feedAll_file (session : Session) (name : String) (rest : List Input) :
    session.feedAll (.file name :: rest) = (session.inFile name).feedAll rest := rfl

theorem feedAll_append (a b : List Input) : ∀ session : Session,
    session.feedAll (a ++ b) =
      match session.feedAll a with
      | (session, some error) => (session, some error)
      | (session, none) => session.feedAll b := by
  induction a with
  | nil => intro session; rfl
  | cons input a ih =>
    intro session
    rw [List.cons_append, feedAll, feedAll]
    rcases session.feed input with ⟨next, _ | error⟩
    · exact ih next
    · rfl

/-- **A run without errors adds the code of its inputs.** -/
theorem code_feedAll (inputs : List Input) : ∀ {session last : Session},
    session.feedAll inputs = (last, none) →
      last.listing.code =
        session.listing.code ++ inputsCode session.listing.comments session.scope inputs := by
  induction inputs with
  | nil =>
    intro session last h
    cases h
    rw [inputsCode, List.append_nil]
  | cons input rest ih =>
    intro session last h
    obtain ⟨_, hRest⟩ := feedAll_cons_eq_none.mp h
    rw [ih hRest, code_feed, comments_feed, scope_feed, inputsCode, List.append_assoc]

theorem scope_feedAll (inputs : List Input) : ∀ {session last : Session},
    session.feedAll inputs = (last, none) → last.scope = inputsAfter session.scope inputs := by
  induction inputs with
  | nil => intro session last h; cases h; rfl
  | cons input rest ih =>
    intro session last h
    obtain ⟨_, hRest⟩ := feedAll_cons_eq_none.mp h
    rw [ih hRest, scope_feed]
    rfl

/-! ### Runs that go on after errors -/

/-- Takes inputs one after the other, whatever the answers are; the answers, in order. -/
def feedEach (session : Session) : List Input → Session × List (Option Error)
  | [] => (session, [])
  | input :: rest =>
    let (next, answer) := session.feed input
    let (last, answers) := next.feedEach rest
    (last, answer :: answers)

theorem feedEach_cons (session : Session) (input : Input) (rest : List Input) :
    session.feedEach (input :: rest) =
      (((session.feed input).1.feedEach rest).1,
        (session.feed input).2 :: ((session.feed input).1.feedEach rest).2) := rfl

theorem feedEach_append (a b : List Input) : ∀ session : Session,
    session.feedEach (a ++ b) =
      (((session.feedEach a).1.feedEach b).1,
        (session.feedEach a).2 ++ ((session.feedEach a).1.feedEach b).2) := by
  induction a with
  | nil => exact fun _ => rfl
  | cons input a ih =>
    intro session
    rw [List.cons_append, feedEach_cons, ih]
    rfl

theorem length_feedEach (inputs : List Input) : ∀ session : Session,
    (session.feedEach inputs).2.length = inputs.length := by
  induction inputs with
  | nil => exact fun _ => rfl
  | cons input rest ih => exact fun session => congrArg (· + 1) (ih (session.feed input).1)

theorem scope_feedEach (inputs : List Input) : ∀ session : Session,
    (session.feedEach inputs).1.scope = inputsAfter session.scope inputs := by
  induction inputs with
  | nil => exact fun _ => rfl
  | cons input rest ih =>
    intro session
    rw [feedEach_cons]
    exact (ih _).trans (congrArg (inputsAfter · rest) (scope_feed session input))

theorem comments_feedEach (inputs : List Input) : ∀ session : Session,
    (session.feedEach inputs).1.listing.comments = session.listing.comments := by
  induction inputs with
  | nil => exact fun _ => rfl
  | cons input rest ih =>
    intro session
    rw [feedEach_cons]
    exact (ih _).trans (comments_feed session input)

/-- **Every run adds the code of its inputs**, whatever the answers are. -/
theorem code_feedEach (inputs : List Input) : ∀ session : Session,
    (session.feedEach inputs).1.listing.code =
      session.listing.code ++ inputsCode session.listing.comments session.scope inputs := by
  induction inputs with
  | nil => exact fun _ => (List.append_nil _).symm
  | cons input rest ih =>
    intro session
    have hRest := ih (session.feed input).1
    rw [code_feed, comments_feed, scope_feed, List.append_assoc] at hRest
    rw [feedEach_cons]
    exact hRest

/-! ### The files of a program -/

theorem translateStatements_eq_feedAll (statements : List Statement) : ∀ session : Session,
    session.translateStatements statements = session.feedAll (statements.map .statement) := by
  induction statements with
  | nil => intro session; rfl
  | cons s rest ih =>
    intro session
    rw [translateStatements, List.map_cons, feedAll, feed]
    rcases session.translate s with ⟨next, _ | error⟩
    · exact ih next
    · rfl

theorem translateParts_eq_feedAll (parts : List Part) : ∀ session : Session,
    session.translateParts parts = session.feedAll (inputs parts) := by
  induction parts with
  | nil => intro session; rfl
  | cons part rest ih =>
    intro session
    rw [translateParts, inputs, List.flatMap_cons, feedAll_append, feedAll_file,
      translateStatements_eq_feedAll]
    rcases (session.inFile part.name).feedAll (part.statements.map .statement) with
      ⟨next, _ | error⟩
    · exact ih next
    · rfl

end Session

/-! ### The code of a program -/

/-- What a program starts with, before its first command. -/
def prologue (options : Options) : Code :=
  if options.bootstrap then
    (if options.comments then [.comment "bootstrap"] else []) ++ stackCode
  else []

/-- The inputs of a program.  The call of the entry point comes before all files. -/
def programInputs (options : Options) (parts : List Part) : List Input :=
  (if options.bootstrap then [.statement ⟨⟨"", 0⟩, .call entryPoint 0⟩] else []) ++ inputs parts

/-- The code of a program. -/
def programCode (options : Options) (parts : List Part) : Code :=
  prologue options ++ inputsCode options.comments {} (programInputs options parts)

theorem Session.comments_start (options : Options) :
    (start options).listing.comments = options.comments := by
  unfold start
  cases options.bootstrap
  · rfl
  · cases hc : options.comments <;> simp [Listing.append, Listing.comment]

theorem Session.code_start (options : Options) (parts : List Part) :
    (start options).listing.code ++ inputsCode options.comments (start options).scope (inputs parts)
      = programCode options parts := by
  unfold start programCode prologue programInputs
  cases options.bootstrap
  · simp [Listing.code]
  · simp [inputsCode, Input.code, Input.after, Command.emitted, Scope.after, Command.code,
      Listing.code]
    cases options.comments <;> simp [Listing.comment, Listing.append]

/-- **The code of an accepted program** is the prologue and the code of its inputs. -/
theorem translateParts_eq_ok {options : Options} {parts : List Part} {code : Code}
    (h : translateParts options parts = .ok code) : code = programCode options parts := by
  rw [translateParts, Session.translateParts_eq_feedAll] at h
  rcases hRun : (Session.start options).feedAll (inputs parts) with ⟨last, _ | error⟩
  · rw [hRun] at h
    rw [← Except.ok.inj h, Session.code_feedAll _ hRun, Session.comments_start, Session.code_start]
  · rw [hRun] at h
    cases h

theorem translate_eq_ok {options : Options} {sources : List Source} {parts : List Part}
    {code : Code} (hRead : readSources sources = .ok parts)
    (h : translate options sources = .ok code) : code = programCode options parts := by
  rw [translate, hRead] at h
  exact translateParts_eq_ok h

end HackVm
