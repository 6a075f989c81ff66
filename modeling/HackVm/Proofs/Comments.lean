import HackVm.Machine
import HackVm.Proofs.Answers
import HackVm.Proofs.CommandCode

/-!
# Comments change nothing

A program can be translated with comments and without.  The labels of a program are looked for in
its code by position, so the two translations search different stretches at every statement, and the
two passes of the loader go over code of different lengths.  Neither makes a difference.

* `Code.bare`: code without its comments.  Commands leave none (`Command.bare_emitted`), they come
  from the session alone.
* `Session.Alike`: a session without comments and one that may have them, after the same statements.
  One input keeps two sessions alike and has the same answer from both (`Session.Alike.feed`), and
  so does a run (`Session.Alike.feedAll`).
* `Machine.load_bare`: the loader makes the same machine of code and of code without its comments.
* `comments_change_nothing`: both translations have the same error, or programs that differ in their
  comments only and make the same machine.
-/

namespace HackVm

/-! ### Code without comments -/

/-- Whether the line is text for the reader. -/
def Instruction.isComment : Instruction → Bool
  | comment _ => true
  | load _ | compute .. | label _ => false

namespace Code

/-- The code without its comments. -/
def bare (code : Code) : Code :=
  code.filter fun i => !i.isComment

theorem bare_append (code rest : Code) : bare (code ++ rest) = bare code ++ bare rest :=
  List.filter_append code rest

theorem bare_cons {i : Instruction} (h : i.isComment = false) (code : Code) :
    bare (i :: code) = i :: bare code :=
  List.filter_cons_of_pos (by simp [h])

theorem bare_eq_self {code : Code} : bare code = code ↔ ∀ i ∈ code, i.isComment = false := by
  rw [bare, List.filter_eq_self]
  simp only [Bool.not_eq_true']

theorem bare_function (name : String) (locals : Word) :
    bare (functionCode name locals) = functionCode name locals := by
  have hPush : bare (pushNumber 0) = pushNumber 0 := rfl
  rw [bare_eq_self] at hPush ⊢
  intro i hi
  rcases List.mem_cons.mp hi with rfl | hi
  · rfl
  · obtain ⟨code, hCode, hMem⟩ := List.mem_flatten.mp hi
    rw [List.eq_of_mem_replicate hCode] at hMem
    exact hPush i hMem

end Code

theorem bare_pushCode {scope : Scope} {segment : Segment} {index : Word} {code : Code}
    (h : pushCode scope segment index = .ok code) : Code.bare code = code := by
  obtain ⟨place, -, rfl⟩ := pushCode_eq_ok h
  rw [Code.bare_append]
  cases place <;> rfl

theorem bare_popCode {scope : Scope} {segment : Segment} {index : Word} {code : Code}
    (h : popCode scope segment index = .ok code) : Code.bare code = code := by
  obtain ⟨place, -, target, find, hTarget, rfl⟩ := popCode_eq_ok h
  rw [Code.bare_append]
  cases place <;> cases hTarget <;> rfl

/-- **Commands leave no comments.** -/
theorem Command.bare_emitted (command : Command) (scope : Scope) :
    Code.bare (command.emitted scope) = command.emitted scope := by
  cases command with
  | push segment index =>
    rw [emitted, Command.code]
    cases hCode : pushCode scope segment index with
    | ok code => exact bare_pushCode hCode
    | error fault => rfl
  | pop segment index =>
    rw [emitted, Command.code]
    cases hCode : popCode scope segment index with
    | ok code => exact bare_popCode hCode
    | error fault => rfl
  | function name locals => exact Code.bare_function name locals
  | _ => rfl

/-- The code of an input without its comments is what the input leaves without comments. -/
theorem Input.bare_code (comments : Bool) (scope : Scope) (input : Input) :
    Code.bare (input.code comments scope) = input.code false scope := by
  cases input with
  | file name => rfl
  | statement s =>
    rw [Input.code, Input.code, Code.bare_append, Command.bare_emitted]
    cases comments <;> rfl

/-! ### The loader -/

theorem placeLabels_bare (code : Code) : ∀ (table : SymbolTable) (count : Nat),
    placeLabels table count (Code.bare code) = placeLabels table count code := by
  induction code with
  | nil => intro table count; rfl
  | cons i code ih =>
    intro table count
    cases i with
    | comment text => exact ih table count
    | label name => rw [Code.bare_cons rfl, placeLabels, placeLabels, ih]
    | load address => rw [Code.bare_cons rfl, placeLabels, placeLabels, ih]
    | compute dest comp jump => rw [Code.bare_cons rfl, placeLabels, placeLabels, ih]

theorem resolve_bare (table : SymbolTable) (next : Nat) (rom : Array Op) (code : Code) :
    resolve table next rom (Code.bare code) = resolve table next rom code := by
  fun_induction resolve table next rom code with
  | case1 table next rom => rfl
  | case2 table next rom value rest ih => exact ih
  | case3 table next rom symbol rest found hFound ih =>
    rw [Code.bare_cons rfl, resolve, hFound]
    exact ih
  | case4 table next rom symbol rest hNew hRoom fresh ih =>
    rw [Code.bare_cons rfl, resolve, hNew]
    exact (if_pos hRoom).trans ih
  | case5 table next rom symbol rest hNew hFull =>
    rw [Code.bare_cons rfl, resolve, hNew]
    exact if_neg hFull
  | case6 table next rom dest comp jump rest ih => exact ih
  | case7 table next rom label rest ih => exact ih
  | case8 table next rom text rest ih => exact ih

/-- **The loader passes over comments.** -/
theorem Machine.load_bare (code : Code) : Machine.load (Code.bare code) = Machine.load code := by
  rw [Machine.load, Machine.load, Image.load, Image.load, placeLabels_bare]
  simp only [resolve_bare]

/-! ### Two sessions -/

namespace Session

/-- A session without comments and one that may have them, after the same inputs. -/
structure Alike (quiet loud : Session) : Prop where
  scope_eq : quiet.scope = loud.scope
  labels_eq : quiet.labels = loud.labels
  comments_eq : quiet.listing.comments = false
  code_eq : quiet.listing.code = Code.bare loud.listing.code
  /-- The two searches go on at different positions, but the same labels are ahead of them. -/
  unsearched_eq : quiet.unsearched = loud.unsearched
  quiet_le : quiet.searched ≤ quiet.listing.code.length
  loud_le : loud.searched ≤ loud.listing.code.length

theorem alike_start (bootstrap : Bool) :
    Alike (start ⟨bootstrap, false⟩) (start ⟨bootstrap, true⟩) := by
  cases bootstrap <;>
    exact ⟨rfl, rfl, rfl, by decide, by decide, Nat.zero_le _, Nat.zero_le _⟩

theorem Alike.agree {quiet loud : Session} (h : Alike quiet loud) : Agree quiet loud :=
  ⟨h.scope_eq, h.labels_eq, h.unsearched_eq, h.quiet_le, h.loud_le⟩

/-- **One input keeps sessions alike**, and they answer the same. -/
theorem Alike.feed {quiet loud : Session} (h : Alike quiet loud) (input : Input) :
    (quiet.feed input).2 = (loud.feed input).2 ∧
      Alike (quiet.feed input).1 (loud.feed input).1 := by
  obtain ⟨hAnswer, hNext⟩ := h.agree.feed input
  refine ⟨hAnswer, hNext.scope_eq, hNext.labels_eq, ?_, ?_, hNext.unsearched_eq, hNext.le,
    hNext.other_le⟩
  · exact (comments_feed quiet input).trans h.comments_eq
  · rw [code_feed, code_feed, Code.bare_append, ← h.code_eq, h.comments_eq, h.scope_eq,
      Input.bare_code]

theorem Alike.feedAll (inputs : List Input) : ∀ {quiet loud : Session}, Alike quiet loud →
    (quiet.feedAll inputs).2 = (loud.feedAll inputs).2 ∧
      Alike (quiet.feedAll inputs).1 (loud.feedAll inputs).1 := by
  induction inputs with
  | nil => intro quiet loud h; exact ⟨rfl, h⟩
  | cons input rest ih =>
    intro quiet loud h
    obtain ⟨hAnswer, hNext⟩ := h.feed input
    rw [Session.feedAll, Session.feedAll]
    rcases hQuiet : quiet.feed input with ⟨quietNext, answer⟩
    rcases hLoud : loud.feed input with ⟨loudNext, loudAnswer⟩
    rw [hQuiet, hLoud] at hAnswer hNext
    obtain rfl : answer = loudAnswer := hAnswer
    cases answer with
    | none => exact ih hNext
    | some error => exact ⟨rfl, hNext⟩

end Session

/-! ### Two programs -/

theorem translateParts_bare (bootstrap : Bool) (parts : List Part) :
    translateParts ⟨bootstrap, false⟩ parts =
      (translateParts ⟨bootstrap, true⟩ parts).map Code.bare := by
  have hStart := Session.alike_start bootstrap
  obtain ⟨hAnswer, hLast⟩ := hStart.feedAll (inputs parts)
  rw [translateParts, translateParts, Session.translateParts_eq_feedAll,
    Session.translateParts_eq_feedAll]
  rcases hQuiet : (Session.start ⟨bootstrap, false⟩).feedAll (inputs parts) with ⟨quiet, answer⟩
  rcases hLoud : (Session.start ⟨bootstrap, true⟩).feedAll (inputs parts) with ⟨loud, loudAnswer⟩
  rw [hQuiet, hLoud] at hAnswer hLast
  obtain rfl : answer = loudAnswer := hAnswer
  cases answer with
  | none => exact congrArg Except.ok hLast.code_eq
  | some error => rfl

/-- **Comments change nothing.**  Without comments the translation of any files has the error that
it has with comments, or else the same program without its comments.  The machines into which the
two programs are loaded are equal, memory, symbols and all, so every run of one is a run of the
other, and if one program is refused, so is the other and for the same reason. -/
theorem comments_change_nothing (bootstrap : Bool) (sources : List Source) :
    translate ⟨bootstrap, false⟩ sources = (translate ⟨bootstrap, true⟩ sources).map Code.bare ∧
      (translate ⟨bootstrap, false⟩ sources).map Machine.load =
        (translate ⟨bootstrap, true⟩ sources).map Machine.load := by
  have hBare : translate ⟨bootstrap, false⟩ sources =
      (translate ⟨bootstrap, true⟩ sources).map Code.bare := by
    rw [translate, translate]
    cases readSources sources with
    | error error => rfl
    | ok parts => exact translateParts_bare bootstrap parts
  refine ⟨hBare, ?_⟩
  rw [hBare]
  cases translate ⟨bootstrap, true⟩ sources with
  | error error => rfl
  | ok code => exact congrArg Except.ok (Machine.load_bare code)

end HackVm
