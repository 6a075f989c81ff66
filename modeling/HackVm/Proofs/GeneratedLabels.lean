import Mathlib.Data.List.Nodup
import HackVm.Proofs.Input
import HackVm.Proofs.SymbolName

/-!
# Labels that code makes for itself

A comparison makes two labels for itself and a call makes one.  They begin with the name of the
function, which may be any text and may look like such a label itself.  What tells them apart is what
stands behind the last dollar sign: a word for the kind of the point (`Mark.stem`) and a number.  Each
kind is counted over the whole session, so a label is ahead of a scope (`Scope.Ahead`) until its number
was used, and it is never ahead again.

* `Mark.symbol_inj`: the label of a point tells its kind and its number, whatever the functions are.
* `Mark.count_after`: the counters go up by one with each command that they count, and stay otherwise.
* `Session.generated`: the labels that the code of comparisons and calls declares in a run.
* `generated_labels_distinct`: these labels are distinct in every run, errors or not.
-/

namespace HackVm

/-! ### Kinds of points -/

/-- The points of its code that a command makes labels for. -/
inductive Mark
  /-- Where a comparison goes on that holds. -/
  | holds
  /-- Where the branches of a comparison meet. -/
  | meet
  /-- Where a call returns to. -/
  | back
  deriving DecidableEq, Repr

namespace Mark

/-- The word for the kind of point. -/
def stem : Mark → String
  | holds => "cmp.true"
  | meet => "cmp.end"
  | back => "ret"

/-- How many commands came before that have such a point. -/
def count (scope : Scope) : Mark → Nat
  | holds => scope.comparisons
  | meet => scope.comparisons
  | back => scope.calls

/-- The label of a point in its function. -/
def name (mark : Mark) (n : Nat) : String :=
  mark.stem ++ "." ++ n.repr

/-- The label of a point. -/
def symbol (scope : Scope) (mark : Mark) (n : Nat) : String :=
  scope.labelSymbol (mark.name n)

variable {mark other : Mark} {m n : Nat}

theorem stem_inj (h : mark.stem = other.stem) : mark = other := by
  revert h
  cases mark <;> cases other <;> decide

theorem dollar_not_mem_name (mark : Mark) (n : Nat) : '$' ∉ (mark.name n).toList := by
  rw [name, toList_numbered]
  intro h
  rcases List.mem_append.mp h with hStem | hRest
  · revert hStem
    cases mark <;> decide
  · rcases List.mem_cons.mp hRest with hPoint | hDigit
    · exact absurd hPoint (by decide)
    · exact absurd (isDigit_repr n _ hDigit) (by decide)

/-- **The label of a point tells its kind and its number**, whatever the functions are. -/
theorem symbol_inj {scope next : Scope} (h : symbol scope mark m = symbol next other n) :
    mark = other ∧ m = n := by
  obtain ⟨-, hName⟩ :=
    Scope.labelSymbol_inj (dollar_not_mem_name mark m) (dollar_not_mem_name other n) h
  obtain ⟨hStem, hNumber⟩ := numbered_inj.mp hName
  exact ⟨stem_inj hStem, hNumber⟩

end Mark

/-! ### What one input makes -/

/-- The points of its code that a command makes labels for, in their order. -/
def Command.marks : Command → List Mark
  | compare _ => [.holds, .meet]
  | call _ _ => [.back]
  | _ => []

namespace Input

/-- The points of its code that an input makes labels for. -/
def marks : Input → List Mark
  | file _ => []
  | statement s => s.command.marks

/-- Whether the input is an `eq`, a `gt` or an `lt`. -/
def isComparison : Input → Bool
  | statement ⟨_, .compare _⟩ => true
  | _ => false

/-- Whether the input is a `call`. -/
def isCall : Input → Bool
  | statement ⟨_, .call _ _⟩ => true
  | _ => false

theorem nodup_marks (input : Input) : input.marks.Nodup := by
  cases input with
  | file name => exact List.nodup_nil
  | statement s =>
    obtain ⟨position, command⟩ := s
    cases command with
    | compare op => exact (by decide : [Mark.holds, Mark.meet].Nodup)
    | call name arguments => exact List.nodup_singleton _
    | _ => exact List.nodup_nil

theorem holds_mem_marks {input : Input} : .holds ∈ input.marks ↔ input.isComparison := by
  cases input with
  | file name => simp [marks, isComparison]
  | statement s =>
    obtain ⟨position, command⟩ := s
    cases command <;> simp [marks, Command.marks, isComparison]

theorem back_mem_marks {input : Input} : .back ∈ input.marks ↔ input.isCall := by
  cases input with
  | file name => simp [marks, isCall]
  | statement s =>
    obtain ⟨position, command⟩ := s
    cases command <;> simp [marks, Command.marks, isCall]

theorem length_marks (input : Input) :
    input.marks.length =
      2 * (if input.isComparison then 1 else 0) + if input.isCall then 1 else 0 := by
  cases input with
  | file name => rfl
  | statement s =>
    obtain ⟨position, command⟩ := s
    cases command <;> rfl

theorem marks_eq_nil {input : Input} (hComparison : input.isComparison = false)
    (hCall : input.isCall = false) : input.marks = [] := by
  rw [← List.length_eq_zero_iff, length_marks, hComparison, hCall]
  rfl

/-- The labels of a comparison or a call are those of its points, each with its counter. -/
theorem labels_code_of_marks (comments : Bool) (scope : Scope) {input : Input}
    (h : (input.isComparison || input.isCall) = true) :
    Code.labels (input.code comments scope) =
      input.marks.map fun mark => mark.symbol scope (mark.count scope) := by
  cases input with
  | file name => cases h
  | statement s =>
    obtain ⟨position, command⟩ := s
    rw [labels_code]
    cases command with
    | compare op => rfl
    | call name arguments => rfl
    | _ => cases h

end Input

/-- **The counters go up with the commands that they count**, and with no other input. -/
theorem Mark.count_after (mark : Mark) (scope : Scope) (input : Input) :
    mark.count (input.after scope) =
      mark.count scope + if mark ∈ input.marks then 1 else 0 := by
  cases input with
  | file name => cases mark <;> rfl
  | statement s =>
    obtain ⟨position, command⟩ := s
    rw [Input.after, Scope.after]
    cases command with
    | push segment index =>
      rw [Command.code]
      cases pushCode scope segment index <;> cases mark <;> rfl
    | pop segment index =>
      rw [Command.code]
      cases popCode scope segment index <;> cases mark <;> rfl
    | _ => cases mark <;> rfl

/-! ### Labels that are ahead -/

/-- A label is ahead of a scope if it is that of a point whose number was not used yet. -/
def Scope.Ahead (scope : Scope) (label : String) : Prop :=
  ∃ (later : Scope) (mark : Mark) (n : Nat), mark.count scope ≤ n ∧ label = mark.symbol later n

/-- A label that is ahead behind an input is ahead before it, and is not one of its points. -/
theorem Scope.Ahead.of_after {scope : Scope} {input : Input} {label : String}
    (h : (input.after scope).Ahead label) :
    scope.Ahead label ∧ ∀ mark ∈ input.marks, label ≠ mark.symbol scope (mark.count scope) := by
  obtain ⟨later, mark, n, hCount, rfl⟩ := h
  rw [mark.count_after] at hCount
  refine ⟨⟨later, mark, n, by omega, rfl⟩, ?_⟩
  rintro other hOther hSame
  obtain ⟨rfl, rfl⟩ := Mark.symbol_inj hSame
  rw [if_pos hOther] at hCount
  omega

/-! ### Runs -/

namespace Session

/-- The labels that an input has the code declare for a comparison or a call. -/
def generatedBy (session : Session) (input : Input) : List String :=
  if input.isComparison || input.isCall then
    Code.labels ((session.feed input).1.listing.code.drop session.listing.code.length)
  else []

/-- The labels that a run that goes on after errors has the code declare for comparisons and
calls. -/
def generated (session : Session) : List Input → List String
  | [] => []
  | input :: rest => session.generatedBy input ++ (session.feed input).1.generated rest

theorem generatedBy_eq (session : Session) (input : Input) :
    session.generatedBy input =
      input.marks.map fun mark => mark.symbol session.scope (mark.count session.scope) := by
  rw [generatedBy]
  split
  · next h => rw [code_feed, List.drop_left, Input.labels_code_of_marks _ _ h]
  · next h =>
    rw [Bool.not_eq_true, Bool.or_eq_false_iff] at h
    rw [Input.marks_eq_nil h.1 h.2]
    rfl

/-- All labels that a run makes are ahead of its first scope. -/
theorem ahead_of_mem_generated {inputs : List Input} : ∀ {session : Session} {label : String},
    label ∈ session.generated inputs → session.scope.Ahead label := by
  induction inputs with
  | nil => exact fun h => absurd h List.not_mem_nil
  | cons input rest ih =>
    intro session label h
    rcases List.mem_append.mp h with hFirst | hRest
    · rw [generatedBy_eq] at hFirst
      obtain ⟨mark, -, rfl⟩ := List.mem_map.mp hFirst
      exact ⟨session.scope, mark, _, Nat.le_refl _, rfl⟩
    · have hAhead := ih hRest
      rw [scope_feed] at hAhead
      exact hAhead.of_after.1

/-- **A run makes no label twice.**  The labels of its first input are distinct, and they are not
ahead any more behind it, as all labels of the rest are. -/
theorem nodup_generated (inputs : List Input) : ∀ session : Session,
    (session.generated inputs).Nodup := by
  induction inputs with
  | nil => exact fun _ => List.nodup_nil
  | cons input rest ih =>
    intro session
    rw [generated, List.nodup_append]
    refine ⟨?_, ih _, ?_⟩
    · rw [generatedBy_eq]
      refine input.nodup_marks.map_on fun mark _ other _ h => (Mark.symbol_inj h).1
    · intro label hFirst other hRest
      rw [generatedBy_eq] at hFirst
      obtain ⟨mark, hMark, rfl⟩ := List.mem_map.mp hFirst
      have hAhead := ahead_of_mem_generated hRest
      rw [scope_feed] at hAhead
      exact (hAhead.of_after.2 mark hMark).symm

/-- The labels that a run makes stand in the code that it adds. -/
theorem generated_sublist (inputs : List Input) : ∀ session : Session,
    (session.generated inputs).Sublist
      (Code.labels (inputsCode session.listing.comments session.scope inputs)) := by
  induction inputs with
  | nil => exact fun _ => List.Sublist.slnil
  | cons input rest ih =>
    intro session
    have hRest := ih (session.feed input).1
    rw [comments_feed, scope_feed] at hRest
    rw [generated, inputsCode, Code.labels_append]
    refine List.Sublist.append ?_ hRest
    rw [generatedBy, code_feed, List.drop_left]
    split
    · exact List.Sublist.refl _
    · exact List.nil_sublist _

/-- A run makes two labels for each comparison and one for each call. -/
theorem length_generated (inputs : List Input) : ∀ session : Session,
    (session.generated inputs).length =
      2 * inputs.countP Input.isComparison + inputs.countP Input.isCall := by
  induction inputs with
  | nil => exact fun _ => rfl
  | cons input rest ih =>
    intro session
    rw [generated, List.length_append, ih, generatedBy_eq, List.length_map, input.length_marks,
      List.countP_cons, List.countP_cons]
    omega

end Session

/-! ### Counters -/

/-- A counter tells how many inputs it has counted. -/
theorem Mark.count_inputsAfter (mark : Mark) (inputs : List Input) : ∀ scope : Scope,
    mark.count (inputsAfter scope inputs) =
      mark.count scope + inputs.countP fun input => mark ∈ input.marks := by
  induction inputs with
  | nil => exact fun _ => rfl
  | cons input rest ih =>
    intro scope
    have hRest : mark.count (inputsAfter scope (input :: rest)) = _ := ih (input.after scope)
    rw [hRest, mark.count_after, List.countP_cons]
    simp only [decide_eq_true_eq]
    omega

theorem comparisons_inputsAfter (scope : Scope) (inputs : List Input) :
    (inputsAfter scope inputs).comparisons =
      scope.comparisons + inputs.countP Input.isComparison := by
  have hCount := Mark.holds.count_inputsAfter inputs scope
  simp only [Input.holds_mem_marks, Bool.decide_eq_true] at hCount
  exact hCount

theorem calls_inputsAfter (scope : Scope) (inputs : List Input) :
    (inputsAfter scope inputs).calls = scope.calls + inputs.countP Input.isCall := by
  have hCount := Mark.back.count_inputsAfter inputs scope
  simp only [Input.back_mem_marks, Bool.decide_eq_true] at hCount
  exact hCount

namespace Session

variable (options : Options)

theorem scope_start :
    (start options).scope = if options.bootstrap then Scope.afterCall {} else {} := by
  unfold start
  split <;> rfl

/-- **The counter of comparisons** tells how many a run was fed with. -/
theorem comparisons_run (inputs : List Input) :
    ((start options).feedEach inputs).1.scope.comparisons =
      inputs.countP Input.isComparison := by
  have hNone : (start options).scope.comparisons = 0 := by
    rw [scope_start]
    split <;> rfl
  rw [scope_feedEach, comparisons_inputsAfter, hNone, Nat.zero_add]

/-- **The counter of calls** tells how many a run was fed with, and counts that of the bootstrap. -/
theorem calls_run (inputs : List Input) :
    ((start options).feedEach inputs).1.scope.calls =
      inputs.countP Input.isCall + if options.bootstrap then 1 else 0 := by
  have hStart : (start options).scope.calls = if options.bootstrap then 1 else 0 := by
    rw [scope_start]
    split <;> rfl
  rw [scope_feedEach, calls_inputsAfter, hStart, Nat.add_comm]

/-! ### The bootstrap -/

theorem labels_start :
    Code.labels (start options).listing.code =
      if options.bootstrap then [Mark.back.symbol {} 0] else [] := by
  rcases options with ⟨_ | _, _ | _⟩ <;> rfl

theorem nodup_labels_start : (Code.labels (start options).listing.code).Nodup := by
  rw [labels_start]
  split
  · exact List.nodup_singleton _
  · exact List.nodup_nil

theorem length_labels_start :
    (Code.labels (start options).listing.code).length = if options.bootstrap then 1 else 0 := by
  rw [labels_start]
  split <;> rfl

variable {options}

/-- The label of the bootstrap is not ahead any more when the first input comes. -/
theorem not_ahead_of_mem_labels_start {label : String}
    (h : label ∈ Code.labels (start options).listing.code) :
    ¬ (start options).scope.Ahead label := by
  rw [labels_start] at h
  rw [scope_start]
  split at h
  · next hBootstrap =>
    obtain rfl := List.mem_singleton.mp h
    rw [if_pos hBootstrap]
    rintro ⟨later, mark, n, hCount, hSame⟩
    obtain ⟨rfl, rfl⟩ := Mark.symbol_inj hSame
    exact absurd hCount (by decide)
  · cases h

end Session

/-- **No generated label is used twice.**  In every run, errors or not, the labels that comparisons
and calls have the code declare are distinct, and so is that of the bootstrap.  There are two for
every comparison and one for every call, and the counters of the scope tell how many comparisons and
calls there were, taken or not. -/
theorem generated_labels_distinct (options : Options) (inputs : List Input) :
    let first := Session.start options
    let last := (first.feedEach inputs).1
    let labels := Code.labels first.listing.code ++ first.generated inputs
    labels.Nodup ∧
      labels.Sublist (Code.labels last.listing.code) ∧
      labels.length = 2 * last.scope.comparisons + last.scope.calls ∧
      last.scope.comparisons = inputs.countP Input.isComparison ∧
      last.scope.calls = inputs.countP Input.isCall + if options.bootstrap then 1 else 0 := by
  intro first last labels
  have hComparisons : last.scope.comparisons = inputs.countP Input.isComparison :=
    Session.comparisons_run options inputs
  have hCalls : last.scope.calls =
      inputs.countP Input.isCall + if options.bootstrap then 1 else 0 :=
    Session.calls_run options inputs
  refine ⟨?_, ?_, ?_, hComparisons, hCalls⟩
  · rw [List.nodup_append]
    refine ⟨Session.nodup_labels_start options, Session.nodup_generated inputs first, ?_⟩
    intro label hStart other hOther hSame
    have hAhead : first.scope.Ahead label := hSame ▸ Session.ahead_of_mem_generated hOther
    exact Session.not_ahead_of_mem_labels_start hStart hAhead
  · rw [Session.code_feedEach, Code.labels_append]
    exact List.Sublist.append (List.Sublist.refl _) (Session.generated_sublist inputs first)
  · rw [List.length_append, Session.length_labels_start, Session.length_generated, hComparisons,
      hCalls]
    omega

/-- A function may have the name of a generated label. -/
example : (Session.start {}).generated
    [.statement ⟨⟨"Main.vm", 1⟩, .function "Sys.init$ret.0" 0⟩,
      .statement ⟨⟨"Main.vm", 2⟩, .call "Sys.init" 0⟩] = ["Sys.init$ret.0$ret.1"] := by
  decide

end HackVm
