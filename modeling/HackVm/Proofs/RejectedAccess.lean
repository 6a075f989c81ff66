import HackVm.Proofs.Answers
import HackVm.Proofs.DistinctLabels
import HackVm.Proofs.Misuse

/-!
# A rejected access leaves no trace

A `push` or a `pop` that misuses a segment is rejected after its comment was written, and before the
labels of the code are searched.  The labels that are ahead, such as that of the bootstrap, stay ahead
for the next command.  So the rest of a session is as if the command had not been there, but for the
comment.

* `Session.translate_eq_access_iff`: the commands that misuse a segment are rejected for it, in every
  session.
* `Session.Agree.of_access`: a session that has rejected an access goes on like the session before.
* `rejected_access_leaves_no_trace`: the same for whole runs, with or without the command.
-/

namespace HackVm

namespace Session

variable {session : Session} {s : Statement} {position : Position} {fault : SegmentFault}

/-- **Which commands are rejected for their segment**, in every session. -/
theorem translate_eq_access_iff :
    (session.translate s).2 = some (.access position fault) ↔
      position = s.position ∧ s.command.Misuses fault := by
  have hMisuses : s.command.code session.scope = .error fault ↔ s.command.Misuses fault :=
    Command.code_eq_error_iff
  rw [← hMisuses, translate]
  cases hCode : s.command.code session.scope with
  | error found => simp [eq_comm]
  | ok pair =>
    constructor
    · intro h
      obtain ⟨label, -, hLabel⟩ := Option.map_eq_some_iff.mp h
      cases hLabel
    · rintro ⟨-, hError⟩
      cases hError

theorem Agree.of_access (hSearched : session.searched ≤ session.listing.code.length)
    (h : (session.translate s).2 = some (.access position fault)) :
    Agree session (session.translate s).1 := by
  have hCode : s.command.code session.scope = .error fault :=
    Command.code_eq_error_iff.mpr (translate_eq_access_iff.mp h).2
  obtain ⟨-, hLabels, -, hAhead⟩ := translate_of_error hSearched hCode
  refine ⟨?_, hLabels.symm, hAhead.symm, hSearched, searched_le_feed hSearched (.statement s)⟩
  rw [translate, hCode]

theorem code_of_access (h : (session.translate s).2 = some (.access position fault)) :
    (session.translate s).1.listing.code = session.listing.code ++
      if session.listing.comments then [.comment s.command.text] else [] := by
  have hCode : s.command.code session.scope = .error fault :=
    Command.code_eq_error_iff.mpr (translate_eq_access_iff.mp h).2
  rw [translate, hCode]
  exact Listing.code_comment session.listing s.command.text

/-- **A session goes on behind a rejected access as if it had not been there.**  The answers and the
scope are the same, and the code but for the comment. -/
theorem feedEach_of_access (hSearched : session.searched ≤ session.listing.code.length)
    (h : (session.translate s).2 = some (.access position fault)) (rest : List Input) :
    let next := (session.translate s).1
    (next.feedEach rest).2 = (session.feedEach rest).2 ∧
      (next.feedEach rest).1.scope = (session.feedEach rest).1.scope ∧
      ∃ later : Code,
        (session.feedEach rest).1.listing.code = session.listing.code ++ later ∧
        (next.feedEach rest).1.listing.code = session.listing.code ++
          (if session.listing.comments then [.comment s.command.text] else []) ++ later := by
  intro next
  have hAgree : Agree session next := Agree.of_access hSearched h
  have hComments : next.listing.comments = session.listing.comments :=
    comments_feed session (.statement s)
  obtain ⟨hAnswers, hLast⟩ := hAgree.feedEach rest
  refine ⟨hAnswers.symm, hLast.scope_eq.symm,
    inputsCode session.listing.comments session.scope rest, code_feedEach rest session, ?_⟩
  rw [code_feedEach, hComments, ← hAgree.scope_eq, code_of_access h]

end Session

/-! ### Runs -/

/-- **A rejected access leaves no trace but its comment.**  A run that goes on after errors, whole or
without a command that was rejected for its segment, gives the other inputs the same answers and ends
in the same scope: the file, the function and the counters.  Its code is the same, but for the comment
of the command.  A command is rejected so in every session or in none, if it pops into `constant` or
has an index that `temp` or `pointer` do not have. -/
theorem rejected_access_leaves_no_trace (options : Options) :
    (∀ (before after : List Input) (s : Statement) (position : Position) (fault : SegmentFault),
      let middle := ((Session.start options).feedEach before).1
      let whole := (Session.start options).feedEach (before ++ .statement s :: after)
      let without := (Session.start options).feedEach (before ++ after)
      (middle.translate s).2 = some (.access position fault) →
        whole.2[before.length]? = some (some (.access position fault)) ∧
        without.2 = whole.2.eraseIdx before.length ∧
        without.1.scope = whole.1.scope ∧
        ∃ later : Code,
          without.1.listing.code = middle.listing.code ++ later ∧
          whole.1.listing.code = middle.listing.code ++
            (if options.comments then [.comment s.command.text] else []) ++ later) ∧
    ∀ (session : Session) (s : Statement) (position : Position) (fault : SegmentFault),
      (session.translate s).2 = some (.access position fault) ↔
        position = s.position ∧ s.command.Misuses fault := by
  constructor
  · intro before after s position fault middle whole without h
    have hSearched : middle.searched ≤ middle.listing.code.length :=
      Session.searched_le_feedEach (Session.searched_le_start options)
    have hComments : middle.listing.comments = options.comments :=
      (Session.comments_feedEach before _).trans (Session.comments_start options)
    obtain ⟨hAnswers, hScope, later, hWithoutCode, hWholeCode⟩ :=
      Session.feedEach_of_access hSearched h after
    rw [hComments] at hWholeCode
    have hWhole : whole = (((middle.translate s).1.feedEach after).1,
        ((Session.start options).feedEach before).2 ++
          some (.access position fault) :: ((middle.translate s).1.feedEach after).2) := by
      rw [← h]
      exact Session.feedEach_append before (.statement s :: after) _
    have hWithout : without = ((middle.feedEach after).1,
        ((Session.start options).feedEach before).2 ++ (middle.feedEach after).2) :=
      Session.feedEach_append before after _
    rw [hWhole, hWithout, ← Session.length_feedEach before (Session.start options)]
    refine ⟨?_, ?_, hScope.symm, later, hWithoutCode, hWholeCode⟩
    · rw [List.getElem?_append_right (Nat.le_refl _), Nat.sub_self]
      rfl
    · rw [List.eraseIdx_append_of_length_le (Nat.le_refl _), Nat.sub_self, hAnswers]
      rfl
  · intro session s position fault
    exact Session.translate_eq_access_iff

/-- A word of `temp` that is not there, between the bootstrap and a label that the bootstrap took. -/
theorem rejected_temp_before_taken_label :
    let temp : Statement := ⟨⟨"Main.vm", 1⟩, .push .temp 8⟩
    let label : Statement := ⟨⟨"Main.vm", 2⟩, .label "ret.0"⟩
    let taken : Error := .labelTaken ⟨"Main.vm", 2⟩ "Sys.init$ret.0"
    let whole := (Session.start {}).feedEach [.statement temp, .statement label]
    let without := (Session.start {}).feedEach [.statement label]
    without.2 = [some taken] ∧
      whole.2 = [some (.access ⟨"Main.vm", 1⟩ (.outOfRange .temp 8)), some taken] ∧
      without.1.scope = whole.1.scope ∧
      ∃ later : Code,
        without.1.listing.code = (Session.start {}).listing.code ++ later ∧
        whole.1.listing.code =
          (Session.start {}).listing.code ++ [.comment "push temp 8"] ++ later := by
  intro temp label taken whole without
  have hMisuse : ((Session.start {}).translate temp).2 =
      some (.access ⟨"Main.vm", 1⟩ (.outOfRange .temp 8)) :=
    Session.translate_eq_access_iff.mpr ⟨rfl, .push (.temp (by decide))⟩
  have hStart : Code.labels (Session.start {}).listing.code = ["Sys.init$ret.0"] := by
    decide
  have hNew : Code.labels (label.command.emitted (Session.start {}).scope) =
      ["Sys.init$ret.0"] := by
    decide
  have hTaken : ((Session.start {}).translate label).2 = some taken := by
    rw [Session.translate_eq_labelTaken (Session.searched_start {}), hStart, hNew, firstRepeat_cons]
    exact ⟨rfl, Or.inl ⟨List.mem_singleton_self _, rfl⟩⟩
  have hWithout : without.2 = [some taken] := by
    simp only [without, Session.feedEach, Session.feed, hTaken]
  have hText : temp.command.text = "push temp 8" := by
    decide
  have hTrace := (rejected_access_leaves_no_trace {}).1 [] [.statement label] temp _ _ hMisuse
  rw [if_pos rfl, hText] at hTrace
  -- the runs are closed before their parts are compared, or they would be evaluated instead
  clear_value temp label taken
  have hWholeRun : (Session.start {}).feedEach ([] ++ .statement temp :: [.statement label]) =
    whole := rfl
  have hWithoutRun : (Session.start {}).feedEach ([] ++ [.statement label]) = without := rfl
  rw [hWholeRun, hWithoutRun] at hTrace
  clear_value whole without
  obtain ⟨hAnswer, hOthers, hScope, later, hWithoutCode, hWholeCode⟩ := hTrace
  refine ⟨hWithout, ?_, hScope, later, hWithoutCode, hWholeCode⟩
  rw [hWithout] at hOthers
  cases hAnswers : whole.2 with
  | nil =>
    rw [hAnswers] at hAnswer
    cases hAnswer
  | cons first others =>
    rw [hAnswers] at hAnswer hOthers
    exact List.cons_eq_cons.mpr ⟨Option.some.inj hAnswer, hOthers.symm⟩

end HackVm
