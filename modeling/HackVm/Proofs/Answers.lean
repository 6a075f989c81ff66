import HackVm.Proofs.Input

/-!
# What the answers of a session depend on

An answer depends on the scope, on the labels that were found, and on the labels that are ahead in
code that was not searched yet.  Where in the code the search goes on, and what else the code holds,
makes no difference: two sessions that agree in these three (`Session.Agree`) answer every input
alike and agree behind it, whether it is taken or not.

* `Session.translate_of_ok`, `Session.translate_of_error`: one statement, by the labels ahead.
* `Session.Agree.feed`, `Session.Agree.feedEach`: one input, and a run that goes on after errors.
-/

namespace HackVm

namespace Session

/-- The labels of the code that was not searched yet. -/
def unsearched (session : Session) : List String :=
  Code.labels (session.listing.code.drop session.searched)

theorem unsearched_of_searched {session : Session}
    (h : session.searched = session.listing.code.length) : session.unsearched = [] := by
  rw [unsearched, h, List.drop_length]
  rfl

/-! ### One statement -/

section Statement

variable {session : Session} {statement : Statement}
  (hSearched : session.searched ≤ session.listing.code.length)

include hSearched

theorem labels_drop_comment (text : String) (code : Code) :
    Code.labels (((session.listing.comment text).code ++ code).drop session.searched) =
      session.unsearched ++ Code.labels code := by
  have hComment : Code.labels (if session.listing.comments then [.comment text] else []) = [] := by
    split <;> rfl
  rw [Listing.code_comment, List.append_assoc, List.drop_append_of_le_length hSearched,
    Code.labels_append, Code.labels_append, hComment, List.nil_append]
  rfl

/-- A statement that leaves code has its labels searched together with those that were ahead. -/
theorem translate_of_ok {code : Code} {next : Scope}
    (hCode : statement.command.code session.scope = .ok (code, next)) :
    (session.translate statement).2 =
        (declare session.labels (session.unsearched ++ Code.labels code)).2.map
          (.labelTaken statement.position) ∧
      (session.translate statement).1.labels =
        (declare session.labels (session.unsearched ++ Code.labels code)).1 ∧
      (session.translate statement).1.searched =
        (session.translate statement).1.listing.code.length := by
  have hSize := Listing.length_code ((session.listing.comment statement.command.text).append code)
  rw [Listing.code_append] at hSize
  simp only [translate, hCode, declareLabels, Listing.drop_eq, Listing.code_append,
    labels_drop_comment hSearched]
  exact ⟨trivial, trivial, hSize.symm⟩

/-- A statement that misuses a segment leaves the search where it was. -/
theorem translate_of_error {fault : SegmentFault}
    (hCode : statement.command.code session.scope = .error fault) :
    (session.translate statement).2 = some (.access statement.position fault) ∧
      (session.translate statement).1.labels = session.labels ∧
      (session.translate statement).1.searched = session.searched ∧
      (session.translate statement).1.unsearched = session.unsearched := by
  have hAhead := labels_drop_comment hSearched statement.command.text []
  rw [List.append_nil] at hAhead
  simp only [translate, hCode, unsearched]
  exact ⟨trivial, trivial, trivial, hAhead.trans (List.append_nil _)⟩

theorem searched_le_feed (input : Input) :
    (session.feed input).1.searched ≤ (session.feed input).1.listing.code.length := by
  cases input with
  | file name => exact hSearched
  | statement s =>
    cases hResult : s.command.code session.scope with
    | ok pair => exact Nat.le_of_eq (translate_of_ok hSearched hResult).2.2
    | error fault =>
      have hSame : (session.feed (.statement s)).1.searched = session.searched :=
        (translate_of_error hSearched hResult).2.2.1
      rw [hSame, code_feed, List.length_append]
      exact Nat.le_add_right_of_le hSearched

end Statement

theorem searched_le_start (options : Options) :
    (start options).searched ≤ (start options).listing.code.length := by
  have hNone : (start options).searched = 0 := by
    unfold start
    split <;> rfl
  rw [hNone]
  exact Nat.zero_le _

theorem searched_le_feedEach {inputs : List Input} : ∀ {session : Session},
    session.searched ≤ session.listing.code.length →
      (session.feedEach inputs).1.searched ≤ (session.feedEach inputs).1.listing.code.length := by
  induction inputs with
  | nil => exact id
  | cons input rest ih => exact fun h => ih (searched_le_feed h input)

/-! ### Two sessions -/

/-- Two sessions that have the same scope and know the same labels, found or ahead. -/
structure Agree (session other : Session) : Prop where
  scope_eq : session.scope = other.scope
  labels_eq : session.labels = other.labels
  unsearched_eq : session.unsearched = other.unsearched
  le : session.searched ≤ session.listing.code.length
  other_le : other.searched ≤ other.listing.code.length

namespace Agree

variable {session other : Session}

/-- **One input** has the same answer from both, and leaves them in agreement. -/
theorem feed (h : Agree session other) (input : Input) :
    (session.feed input).2 = (other.feed input).2 ∧
      Agree (session.feed input).1 (other.feed input).1 := by
  have hScope : (session.feed input).1.scope = (other.feed input).1.scope := by
    rw [scope_feed, scope_feed, h.scope_eq]
  have hLe := searched_le_feed h.le input
  have hOtherLe := searched_le_feed h.other_le input
  cases input with
  | file name => exact ⟨rfl, hScope, h.labels_eq, h.unsearched_eq, hLe, hOtherLe⟩
  | statement s =>
    cases hResult : s.command.code other.scope with
    | ok pair =>
      obtain ⟨code, next⟩ := pair
      obtain ⟨hAnswer, hLabels, hEnd⟩ := translate_of_ok h.le (h.scope_eq ▸ hResult)
      obtain ⟨hOtherAnswer, hOtherLabels, hOtherEnd⟩ := translate_of_ok h.other_le hResult
      rw [h.labels_eq, h.unsearched_eq] at hAnswer hLabels
      refine ⟨hAnswer.trans hOtherAnswer.symm, hScope, hLabels.trans hOtherLabels.symm, ?_,
        hLe, hOtherLe⟩
      exact (unsearched_of_searched hEnd).trans (unsearched_of_searched hOtherEnd).symm
    | error fault =>
      obtain ⟨hAnswer, hLabels, -, hAhead⟩ := translate_of_error h.le (h.scope_eq ▸ hResult)
      obtain ⟨hOtherAnswer, hOtherLabels, -, hOtherAhead⟩ :=
        translate_of_error h.other_le hResult
      exact ⟨hAnswer.trans hOtherAnswer.symm, hScope,
        hLabels.trans (h.labels_eq.trans hOtherLabels.symm),
        hAhead.trans (h.unsearched_eq.trans hOtherAhead.symm), hLe, hOtherLe⟩

/-- **A run that goes on after errors** has the same answers from both. -/
theorem feedEach (inputs : List Input) : ∀ {session other : Session}, Agree session other →
    (session.feedEach inputs).2 = (other.feedEach inputs).2 ∧
      Agree (session.feedEach inputs).1 (other.feedEach inputs).1 := by
  induction inputs with
  | nil => exact fun h => ⟨rfl, h⟩
  | cons input rest ih =>
    intro session other h
    obtain ⟨hAnswer, hNext⟩ := h.feed input
    obtain ⟨hAnswers, hLast⟩ := ih hNext
    exact ⟨List.cons_eq_cons.mpr ⟨hAnswer, hAnswers⟩, hLast⟩

end Agree

end Session

end HackVm
