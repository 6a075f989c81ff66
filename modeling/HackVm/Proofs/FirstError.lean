import HackVm.Proofs.DistinctLabels
import HackVm.Proofs.Reading

/-!
# The first error, and where it is

All files are read before the first command is translated.  So a line that is no command comes before
every command that cannot be translated, and of each kind of error the first one is told.

* `Rejects`: why a command is rejected.
* `translateParts_eq_error_iff`: the first command that is rejected.
* `FirstError`: the first error of files, told by their lines and commands.
* `first_error_located`: it is what the translation ends with.
-/

namespace HackVm

/-! ### Commands -/

/-- Why a command is rejected in a scope, where these labels are declared: it misuses a segment, or
its code declares a label that is taken. -/
inductive Rejects (scope : Scope) (declared : List String) (s : Statement) : Error → Prop
  | access {fault : SegmentFault} : s.command.code scope = .error fault →
      Rejects scope declared s (.access s.position fault)
  | labelTaken {code : Code} {next : Scope} {label : String} :
      s.command.code scope = .ok (code, next) → FirstRepeat declared (Code.labels code) label →
        Rejects scope declared s (.labelTaken s.position label)

/-- The scope behind the commands of a program. -/
def scopeBehind (options : Options) (parts : List Part) : Scope :=
  inputsAfter {} (programInputs options parts)

namespace Session

theorem translate_eq_some {session : Session} {s : Statement} {error : Error}
    (h : session.Searched) : (session.translate s).2 = some error ↔
      Rejects session.scope (Code.labels session.listing.code) s error := by
  cases hCode : s.command.code session.scope with
  | error fault =>
    have hError : (session.translate s).2 = some (.access s.position fault) := by
      rw [translate, hCode]
    rw [hError]
    constructor
    · intro hSome
      cases hSome
      exact .access hCode
    · rintro (hFault | ⟨hOk, -⟩)
      · rw [hCode] at hFault
        cases hFault
        rfl
      · rw [hCode] at hOk
        cases hOk
  | ok pair =>
    obtain ⟨code, next⟩ := pair
    have hTaken : ∀ position label, (session.translate s).2 = some (.labelTaken position label) ↔
        position = s.position ∧
          FirstRepeat (Code.labels session.listing.code) (Code.labels code) label := by
      intro position label
      rw [translate_eq_labelTaken h, Command.emitted_of_ok hCode]
    constructor
    · intro hSome
      obtain ⟨label, rfl⟩ : ∃ label, error = .labelTaken s.position label := by
        rw [translate, hCode] at hSome
        obtain ⟨label, -, rfl⟩ := Option.map_eq_some_iff.mp hSome
        exact ⟨label, rfl⟩
      exact .labelTaken hCode ((hTaken _ _).mp hSome).2
    · rintro (hFault | ⟨hOk, hRepeat⟩)
      · rw [hCode] at hFault
        cases hFault
      · rw [hCode] at hOk
        cases hOk
        exact (hTaken _ _).mpr ⟨rfl, hRepeat⟩

/-- A run that fails does so at an input behind a run without errors. -/
theorem feedAll_eq_error_iff {last : Session} {error : Error} {inputs : List Input} :
    ∀ {session : Session}, session.feedAll inputs = (last, some error) ↔
      ∃ before input after middle, inputs = before ++ input :: after ∧
        session.feedAll before = (middle, none) ∧ middle.feed input = (last, some error) := by
  induction inputs with
  | nil =>
    intro session
    refine iff_of_false nofun ?_
    rintro ⟨before, input, after, middle, hSplit, -⟩
    simp at hSplit
  | cons first rest ih =>
    intro session
    rw [feedAll]
    rcases hFeed : session.feed first with ⟨next, _ | other⟩
    · refine ih.trans ⟨?_, ?_⟩
      · rintro ⟨before, input, after, middle, rfl, hBefore, hError⟩
        refine ⟨first :: before, input, after, middle, rfl, ?_, hError⟩
        rw [feedAll_cons_eq_none, hFeed]
        exact ⟨rfl, hBefore⟩
      · rintro ⟨before, input, after, middle, hSplit, hBefore, hError⟩
        cases before with
        | nil =>
          obtain ⟨rfl, -⟩ := List.cons.inj hSplit
          cases hBefore
          rw [hFeed] at hError
          cases hError
        | cons other before =>
          obtain ⟨rfl, rfl⟩ := List.cons.inj hSplit
          rw [feedAll_cons_eq_none, hFeed] at hBefore
          exact ⟨before, input, after, middle, rfl, hBefore.2, hError⟩
    · constructor
      · intro h
        exact ⟨[], first, rest, session, rfl, rfl, hFeed.trans h⟩
      · rintro ⟨before, input, after, middle, hSplit, hBefore, hError⟩
        cases before with
        | nil =>
          obtain ⟨rfl, -⟩ := List.cons.inj hSplit
          cases hBefore
          exact hFeed.symm.trans hError
        | cons other before =>
          obtain ⟨rfl, -⟩ := List.cons.inj hSplit
          rw [feedAll_cons_eq_none, hFeed] at hBefore
          cases hBefore.1

end Session

/-! ### The commands of files -/

theorem inputs_append (parts others : List Part) :
    inputs (parts ++ others) = inputs parts ++ inputs others :=
  List.flatMap_append

theorem inputs_eq_before (front back : List Part) (name : String)
    (earlier later : List Statement) (s : Statement) :
    inputs (front ++ ⟨name, earlier ++ s :: later⟩ :: back) =
      inputs (front ++ [⟨name, earlier⟩]) ++
        .statement s :: (later.map .statement ++ inputs back) := by
  rw [inputs_append, inputs_append]
  simp [inputs]

theorem exists_part_of_inputs {s : Statement} {after : List Input} {parts : List Part} :
    ∀ {before : List Input}, inputs parts = before ++ .statement s :: after →
      ∃ front name earlier later back, parts = front ++ ⟨name, earlier ++ s :: later⟩ :: back ∧
        before = inputs (front ++ [⟨name, earlier⟩]) := by
  induction parts with
  | nil => intro before h; simp [inputs] at h
  | cons part rest ih =>
    intro before h
    have hInputs : inputs (part :: rest) =
        .file part.name :: (part.statements.map .statement ++ inputs rest) := rfl
    rw [hInputs] at h
    cases before with
    | nil => cases h
    | cons first before =>
      obtain ⟨rfl, hRest⟩ := List.cons.inj h
      rcases List.append_eq_append_iff.mp hRest with ⟨middle, rfl, hBehind⟩ | ⟨middle, hFile, hBack⟩
      · obtain ⟨front, name, earlier, later, back, rfl, rfl⟩ := ih hBehind
        exact ⟨part :: front, name, earlier, later, back, rfl, rfl⟩
      · cases middle with
        | nil =>
          obtain ⟨front, name, earlier, later, back, rfl, hNil⟩ := @ih [] hBack.symm
          rw [inputs_append] at hNil
          simp [inputs] at hNil
        | cons input middle =>
          obtain ⟨rfl, -⟩ := List.cons.inj hBack
          obtain ⟨earlier, rest', hStatements, rfl, hTail⟩ := List.map_eq_append_iff.mp hFile
          obtain ⟨t, later, rfl, hSame, rfl⟩ := List.map_eq_cons_iff.mp hTail
          obtain rfl := Input.statement.inj hSame
          obtain ⟨name, statements⟩ := part
          cases hStatements
          exact ⟨[], name, earlier, later, rest, rfl, by simp [inputs]⟩

section Program

variable {options : Options} {parts : List Part}

/-- An accepted program is a session without errors, in the scope behind its commands. -/
theorem translateParts_eq_ok_iff {code : Code} : translateParts options parts = .ok code ↔
    ∃ last, (Session.start options).feedAll (inputs parts) = (last, none) ∧
      last.listing.code = code := by
  rw [translateParts, Session.translateParts_eq_feedAll]
  rcases hRun : (Session.start options).feedAll (inputs parts) with ⟨last, _ | error⟩
  · constructor
    · intro h
      exact ⟨last, rfl, Except.ok.inj h⟩
    · rintro ⟨other, hSame, rfl⟩
      cases hSame
      rfl
  · constructor
    · intro h
      cases h
    · rintro ⟨other, hSame, -⟩
      cases hSame

theorem scope_eq_scopeBehind {last : Session}
    (h : (Session.start options).feedAll (inputs parts) = (last, none)) :
    last.scope = scopeBehind options parts := by
  rw [Session.scope_feedAll _ h, scopeBehind, programInputs]
  unfold Session.start
  cases options.bootstrap <;> rfl

/-- **The error of commands is that of the first that is rejected**, in the order of the files and
of their lines.  All commands before it are accepted. -/
theorem translateParts_eq_error_iff {error : Error} : translateParts options parts = .error error ↔
    ∃ front name earlier s later back code,
      parts = front ++ ⟨name, earlier ++ s :: later⟩ :: back ∧
      translateParts options (front ++ [⟨name, earlier⟩]) = .ok code ∧
      Rejects (scopeBehind options (front ++ [⟨name, earlier⟩])) (Code.labels code) s error := by
  have hRun : translateParts options parts = .error error ↔
      ∃ last, (Session.start options).feedAll (inputs parts) = (last, some error) := by
    rw [translateParts, Session.translateParts_eq_feedAll]
    rcases (Session.start options).feedAll (inputs parts) with ⟨last, _ | other⟩
    · constructor
      · intro h
        cases h
      · rintro ⟨next, hSame⟩
        cases hSame
    · constructor
      · intro h
        cases h
        exact ⟨last, rfl⟩
      · rintro ⟨next, hSame⟩
        cases hSame
        rfl
  rw [hRun]
  constructor
  · rintro ⟨last, hLast⟩
    obtain ⟨before, input, after, middle, hSplit, hBefore, hError⟩ :=
      Session.feedAll_eq_error_iff.mp hLast
    cases input with
    | file name => cases hError
    | statement s =>
      obtain ⟨front, name, earlier, later, back, rfl, rfl⟩ := exists_part_of_inputs hSplit
      have hSearched := (Session.searched_start options).feedAll hBefore
      have hRejects := (Session.translate_eq_some hSearched).mp (congrArg Prod.snd hError)
      rw [scope_eq_scopeBehind hBefore] at hRejects
      exact ⟨front, name, earlier, s, later, back, _, rfl,
        translateParts_eq_ok_iff.mpr ⟨middle, hBefore, rfl⟩, hRejects⟩
  · rintro ⟨front, name, earlier, s, later, back, code, rfl, hOk, hRejects⟩
    obtain ⟨middle, hBefore, rfl⟩ := translateParts_eq_ok_iff.mp hOk
    have hSearched := (Session.searched_start options).feedAll hBefore
    rw [← scope_eq_scopeBehind hBefore, ← Session.translate_eq_some hSearched] at hRejects
    exact ⟨(middle.translate s).1, Session.feedAll_eq_error_iff.mpr
      ⟨_, .statement s, _, middle, inputs_eq_before front back name earlier later s, hBefore,
        Prod.ext rfl hRejects⟩⟩

end Program

/-! ### Both together -/

/-- The first error of files.  A line that is no command comes before all commands; then it is the
first command that is rejected behind the commands before it, and its position is that of the line
it was read from. -/
inductive FirstError (options : Options) (sources : List Source) : Error → Prop
  | line {before after : List Source} {source : Source} {number : Nat} {text : List Char}
      {fault : LineFault} : sources = before ++ source :: after →
      (∀ other ∈ before, other.Parses) → source.FirstFault number text fault →
      FirstError options sources
        (.line ⟨source.fileName, number⟩ (String.ofList text) fault)
  | command {before after : List Source} {source : Source} {front : List Part}
      {earlier later : List Statement} {number : Nat} {text : List Char} {command : Command}
      {code : Code} {error : Error} : sources = before ++ source :: after →
      (∀ other ∈ sources, other.Parses) → List.Forall₂ Source.IsPart before front →
      source.IsPart ⟨source.name, earlier ++ ⟨⟨source.fileName, number⟩, command⟩ :: later⟩ →
      source.HasLine number text → Command.read text = .ok command →
      translateParts options (front ++ [⟨source.name, earlier⟩]) = .ok code →
      Rejects (scopeBehind options (front ++ [⟨source.name, earlier⟩])) (Code.labels code)
        ⟨⟨source.fileName, number⟩, command⟩ error →
      FirstError options sources error

section Translate

variable {options : Options} {sources : List Source} {error : Error}

theorem firstError_of_unread {fault : Error} (hRead : readSources sources = .error fault) :
    FirstError options sources error ↔ error = fault := by
  constructor
  · intro h
    cases h with
    | line hSplit hBefore hFirst =>
      have hError := Source.read_eq_error_iff.mpr ⟨_, _, _, hFirst, rfl⟩
      rw [readSources_eq_error_iff.mpr ⟨_, _, _, hSplit, hBefore, hError⟩] at hRead
      exact Except.error.inj hRead
    | command _ hParses =>
      obtain ⟨parts, hParts⟩ := exists_parts hParses
      rw [readSources_eq_ok_iff.mpr ⟨hParses, hParts⟩] at hRead
      cases hRead
  · rintro rfl
    obtain ⟨before, source, after, rfl, hBefore, hSource⟩ := readSources_eq_error_iff.mp hRead
    obtain ⟨number, text, fault, hFirst, rfl⟩ := Source.read_eq_error_iff.mp hSource
    exact .line rfl hBefore hFirst

theorem firstError_of_read {parts : List Part} (hRead : readSources sources = .ok parts) :
    FirstError options sources error ↔ translateParts options parts = .error error := by
  obtain ⟨hParses, hParts⟩ := readSources_eq_ok_iff.mp hRead
  constructor
  · intro h
    cases h with
    | @line before after source number text fault hSplit _ hFirst =>
      have hMem : source ∈ sources := by
        rw [hSplit]
        exact List.mem_append_right _ List.mem_cons_self
      obtain ⟨command, hCommand⟩ := hParses source hMem number text hFirst.hasLine
      rw [hFirst.read_eq] at hCommand
      cases hCommand
    | @command before after source front earlier later _ _ _ _ _ hSplit _ hFront hPart _ _ hOk
        hRejects =>
      subst hSplit
      obtain ⟨back, hBack⟩ := exists_parts fun other hOther =>
        hParses other (List.mem_append_right _ (List.mem_cons_of_mem _ hOther))
      have hAll := List.rel_append hFront (List.Forall₂.cons hPart hBack)
      rw [readSources_eq_ok_iff.mpr ⟨hParses, hAll⟩] at hRead
      rw [← Except.ok.inj hRead]
      exact translateParts_eq_error_iff.mpr
        ⟨front, source.name, earlier, _, later, back, _, rfl, hOk, hRejects⟩
  · intro h
    obtain ⟨front, name, earlier, ⟨position, command⟩, later, back, code, rfl, hOk, hRejects⟩ :=
      translateParts_eq_error_iff.mp h
    obtain ⟨before, source, after, hSplit, hFront, hPart, -⟩ := forall₂_append_cons hParts
    obtain rfl : name = source.name := hPart.name_eq
    obtain ⟨number, text, hLine, hCommand, rfl⟩ :=
      (hPart.mem_iff ⟨position, command⟩).mp (List.mem_append_right _ List.mem_cons_self)
    exact .command hSplit hParses hFront hPart hLine hCommand hOk hRejects

end Translate

/-- **The first error is told, with its place.**  Source files are translated unless there is an
error, and then it is the first one: that of the first line that is no command, in the first file
that has one, or else that of the first command that is rejected. -/
theorem first_error_located (options : Options) (sources : List Source) :
    (∀ error, translate options sources = .error error ↔ FirstError options sources error) ∧
      ((∃ code, translate options sources = .ok code) ↔
        ∀ error, ¬FirstError options sources error) := by
  have hError : ∀ error,
      translate options sources = .error error ↔ FirstError options sources error := by
    intro error
    rw [translate]
    cases hRead : readSources sources with
    | error fault =>
      rw [firstError_of_unread hRead]
      exact ⟨fun h => (Except.error.inj h).symm, fun h => congrArg Except.error h.symm⟩
    | ok parts =>
      rw [firstError_of_read hRead]
      rfl
  refine ⟨hError, ?_⟩
  simp only [← hError]
  cases translate options sources with
  | ok code =>
    refine iff_of_true ⟨code, rfl⟩ ?_
    intro error h
    cases h
  | error error =>
    refine iff_of_false ?_ fun hNone => hNone error rfl
    rintro ⟨code, hOk⟩
    cases hOk

/-- A line of the second file that is no command comes before a misused segment in the first. -/
example : translate {} [.ofText "A" "pop constant 0", .ofText "B" "return\n\npush // nothing"] =
    .error (.line ⟨"B.vm", 3⟩ "push" (.malformed .push)) := by
  rfl

end HackVm
