import Mathlib.Data.List.Count
import HackVm.Proofs.Answers
import HackVm.Proofs.GeneratedLabels
import HackVm.Proofs.SiteCode

/-!
# Labels that the search passes over

The search for labels stops at the first that is taken, and all of the code counts as searched then.
A label behind it stands in the code and is not in the set.  Only a comparison has a label behind
another, so the search passes over the label where the branches of a comparison meet, and it does so
if the label of the branch was declared before (`Command.passedOver`).

In a session that goes on after errors the set holds all other labels of the searched code.  What
was passed over may be declared once more, and is taken from then on.

* `Session.Knows`: the labels of the searched code are those of the set and those passed over.
* `Session.Knows.feed`: every input keeps this, whatever its answer is.
* `labels_known_but_passed_over`: what the set holds behind every run, and which statements are
  refused there.
-/

namespace HackVm

/-! ### What a command has passed over -/

/-- The labels of a command that are passed over if these are declared already. -/
def Command.passedOver (declared : List String) (scope : Scope) : Command → List String
  | compare _ => if scope.trueSymbol ∈ declared then [scope.endSymbol] else []
  | _ => []

theorem Command.eq_endSymbol_of_passedOver {declared : List String} {scope : Scope}
    {command : Command} {label : String} (h : label ∈ command.passedOver declared scope) :
    label = scope.endSymbol := by
  cases command with
  | compare op =>
    rw [passedOver] at h
    split at h
    · exact List.mem_singleton.mp h
    · cases h
  | _ => cases h

theorem Command.count_passedOver_le (declared : List String) (scope : Scope) (command : Command)
    (label : String) : (command.passedOver declared scope).count label ≤
      (Code.labels (command.emitted scope)).count label := by
  cases command with
  | compare op =>
    apply List.Sublist.count_le
    rw [passedOver]
    split
    · exact (List.Sublist.refl [scope.endSymbol]).cons scope.trueSymbol
    · exact List.nil_sublist _
  | _ => exact Nat.zero_le _

/-- A label of a branch is never the point where branches meet, whatever the functions are. -/
theorem Scope.trueSymbol_ne_endSymbol (scope other : Scope) :
    scope.trueSymbol ≠ other.endSymbol := by
  intro h
  have hSymbol : Mark.holds.symbol scope scope.comparisons =
      Mark.meet.symbol other other.comparisons := h
  cases (Mark.symbol_inj hSymbol).1

namespace Session

/-! ### The search -/

section Declare

variable {set : Std.HashSet String} {x y label : String}

theorem declare_append {a b : List String} : ∀ {set : Std.HashSet String},
    (declare set a).2 = none → declare set (a ++ b) = declare (declare set a).1 b := by
  induction a with
  | nil => exact fun _ => rfl
  | cons x a ih =>
    intro set h
    by_cases hTaken : set.contains x
    · rw [declare, if_pos hTaken] at h
      cases h
    · rw [List.cons_append]
      simp only [declare, if_neg hTaken] at h ⊢
      exact ih h

theorem mem_declare_singleton : label ∈ (declare set [x]).1 ↔ label ∈ set ∨ label = x := by
  by_cases hTaken : set.contains x
  · have hMem : x ∈ set := Std.HashSet.mem_iff_contains.mpr hTaken
    rw [declare, if_pos hTaken]
    exact ⟨Or.inl, fun h => h.elim id (fun hSame => hSame ▸ hMem)⟩
  · rw [declare, if_neg hTaken, declare, Std.HashSet.mem_insert, beq_iff_eq, or_comm, eq_comm]

theorem mem_declare_pair :
    label ∈ (declare set [x, y]).1 ↔
      label ∈ set ∨ (if x ∈ set then [y] else []).count label < [x, y].count label := by
  by_cases hTaken : set.contains x
  · have hMem : x ∈ set := Std.HashSet.mem_iff_contains.mpr hTaken
    rw [declare, if_pos hTaken, if_pos hMem, List.count_cons (l := [y]),
      Nat.lt_add_right_iff_pos]
    constructor
    · exact Or.inl
    · rintro (h | hSame)
      · exact h
      · have hEqual : x = label := by
          by_contra hApart
          rw [if_neg (by simpa using hApart)] at hSame
          exact absurd hSame (Nat.lt_irrefl 0)
        exact hEqual ▸ hMem
  · have hFree : x ∉ set := fun h => hTaken (Std.HashSet.mem_iff_contains.mp h)
    rw [declare, if_neg hTaken, if_neg hFree, mem_declare_singleton, Std.HashSet.mem_insert,
      beq_iff_eq, List.count_nil, List.count_pos_iff, List.mem_pair]
    constructor
    · rintro ((h | h) | h)
      · exact Or.inr (Or.inl h.symm)
      · exact Or.inl h
      · exact Or.inr (Or.inr h)
    · rintro (h | h | h)
      · exact Or.inl (Or.inr h)
      · exact Or.inl (Or.inl h.symm)
      · exact Or.inr h

/-- **The labels of a command get into the set**, but for those that are passed over. -/
theorem mem_declare_emitted {declared : List String} {scope : Scope} (command : Command)
    (hBranch : scope.trueSymbol ∈ set ↔ scope.trueSymbol ∈ declared) :
    label ∈ (declare set (Code.labels (command.emitted scope))).1 ↔
      label ∈ set ∨ (command.passedOver declared scope).count label <
        (Code.labels (command.emitted scope)).count label := by
  -- But for a comparison a command has one label at most, and passes over none.
  have hNone : label ∈ (declare set []).1 ↔ label ∈ set ∨ [].count label < [].count label := by
    simp [declare]
  have hOne : ∀ x, label ∈ (declare set [x]).1 ↔
      label ∈ set ∨ [].count label < [x].count label := by
    intro x
    rw [mem_declare_singleton, List.count_nil, List.count_pos_iff, List.mem_singleton]
  have hLabels := Site.labels_code ⟨scope, command, 0⟩
  rw [Site.code] at hLabels
  rw [hLabels]
  cases command with
  | label name => exact hOne _
  | function name locals => exact hOne _
  | call name arguments => exact hOne _
  | compare op =>
    show label ∈ (declare set [scope.trueSymbol, scope.endSymbol]).1 ↔ label ∈ set ∨
      ((Command.compare op).passedOver declared scope).count label <
        [scope.trueSymbol, scope.endSymbol].count label
    rw [mem_declare_pair, Command.passedOver, if_congr hBranch rfl rfl]
  | _ => exact hNone

end Declare

/-! ### What a session knows of its labels -/

/-- The labels that an input has the search pass over. -/
def passedOverBy (session : Session) : Input → List String
  | .file _ => []
  | .statement s => s.command.passedOver (Code.labels session.listing.code) session.scope

/-- The labels that the search passes over in a run that goes on after errors. -/
def passedOver (session : Session) : List Input → List String
  | [] => []
  | input :: rest => session.passedOverBy input ++ (session.feed input).1.passedOver rest

/-- The state of a session that went on after errors, and the labels that were passed over so far:
the set holds the other labels of the searched code. -/
structure Knows (session : Session) (passed : List String) : Prop where
  le_length : session.searched ≤ session.listing.code.length
  count_le : ∀ l, passed.count l ≤
    (Code.labels (session.listing.code.take session.searched)).count l
  mem_labels : ∀ l, l ∈ session.labels ↔
    passed.count l < (Code.labels (session.listing.code.take session.searched)).count l
  /-- None of the labels ahead is taken. -/
  ahead : (declare session.labels session.unsearched).2 = none
  /-- What was passed over are points where branches meet. -/
  meets : ∀ l ∈ passed, ∃ scope : Scope, l = scope.endSymbol

theorem knows_start (options : Options) : (start options).Knows [] := by
  have hLabels : (start options).labels = ∅ := by
    unfold start
    split <;> rfl
  have hSearched : (start options).searched = 0 := by
    unfold start
    split <;> rfl
  have hAhead : (start options).unsearched = Code.labels (start options).listing.code := by
    rw [unsearched, hSearched, List.drop_zero]
  refine ⟨searched_le_start options, fun l => Nat.zero_le _, fun l => ?_, ?_,
    fun l h => absurd h List.not_mem_nil⟩
  · rw [hLabels, hSearched]
    simp [Code.labels]
  · rw [hLabels, hAhead, Option.eq_none_iff_forall_ne_some]
    intro label hTaken
    have hRepeat : FirstRepeat [] (Code.labels (start options).listing.code) label :=
      (declare_eq_some (by simp)).mp hTaken
    exact hRepeat.not_nodup (nodup_labels_start options)

namespace Knows

variable {session : Session} {passed : List String} (h : session.Knows passed)

include h

theorem mem_declare_unsearched (label : String) :
    label ∈ (declare session.labels session.unsearched).1 ↔
      passed.count label < (Code.labels session.listing.code).count label := by
  have hCode : Code.labels session.listing.code =
      Code.labels (session.listing.code.take session.searched) ++ session.unsearched := by
    rw [unsearched, ← Code.labels_append, List.take_append_drop]
  have hLe := h.count_le label
  rw [mem_declare h.ahead, h.mem_labels, hCode, List.count_append, ← List.count_pos_iff]
  omega

theorem mem_declare_unsearched_iff_mem_diff (label : String) :
    label ∈ (declare session.labels session.unsearched).1 ↔
      label ∈ (Code.labels session.listing.code).diff passed := by
  rw [h.mem_declare_unsearched, ← List.count_pos_iff, List.count_diff, Nat.sub_pos_iff_lt]

theorem trueSymbol_mem_iff (scope : Scope) :
    scope.trueSymbol ∈ (declare session.labels session.unsearched).1 ↔
      scope.trueSymbol ∈ Code.labels session.listing.code := by
  have hNever : scope.trueSymbol ∉ passed := by
    intro hMem
    obtain ⟨other, hSame⟩ := h.meets _ hMem
    exact scope.trueSymbol_ne_endSymbol other hSame
  rw [h.mem_declare_unsearched, List.count_eq_zero.mpr hNever, List.count_pos_iff]

/-- **A statement is refused for the first label of its code that is declared already**, where
labels count as declared that were not passed over. -/
theorem translate_eq_labelTaken {s : Statement} {position : Position} {label : String} :
    (session.translate s).2 = some (.labelTaken position label) ↔
      position = s.position ∧ FirstRepeat ((Code.labels session.listing.code).diff passed)
        (Code.labels (s.command.emitted session.scope)) label := by
  cases hCode : s.command.code session.scope with
  | error fault =>
    have hEmpty : s.command.emitted session.scope = [] := by
      simp [Command.emitted, hCode]
    simp [(translate_of_error h.le_length hCode).1, hEmpty, Code.labels, not_firstRepeat_nil]
  | ok pair =>
    rw [(translate_of_ok h.le_length hCode).1, Command.emitted_of_ok hCode,
      declare_append h.ahead, Option.map_eq_some_iff]
    simp only [declare_eq_some h.mem_declare_unsearched_iff_mem_diff, Error.labelTaken.injEq]
    constructor
    · rintro ⟨found, hFirst, rfl, rfl⟩
      exact ⟨rfl, hFirst⟩
    · rintro ⟨rfl, hFirst⟩
      exact ⟨label, hFirst, rfl, rfl⟩

/-- **The end of a comparison is passed over** exactly if the comparison is refused for the label of
its branch. -/
theorem endSymbol_mem_passedOver_iff (op : Comparison) (position : Position) :
    session.scope.endSymbol ∈ (Command.compare op).passedOver
        (Code.labels session.listing.code) session.scope ↔
      (session.translate ⟨position, .compare op⟩).2 =
        some (.labelTaken position session.scope.trueSymbol) := by
  have hLabels : Code.labels ((Command.compare op).emitted session.scope) =
      [session.scope.trueSymbol, session.scope.endSymbol] := rfl
  have hApart := session.scope.trueSymbol_ne_endSymbol session.scope
  rw [h.translate_eq_labelTaken, hLabels, firstRepeat_cons, firstRepeat_cons,
    ← h.mem_declare_unsearched_iff_mem_diff, h.trueSymbol_mem_iff, Command.passedOver]
  by_cases hTaken : session.scope.trueSymbol ∈ Code.labels session.listing.code
  · simp [hTaken]
  · simp [hTaken, hApart, not_firstRepeat_nil]

theorem of_error {s : Statement} {fault : SegmentFault}
    (hCode : s.command.code session.scope = .error fault) :
    (session.translate s).1.Knows passed := by
  obtain ⟨-, hLabels, hSearched, hAhead⟩ := translate_of_error h.le_length hCode
  have hTake : (session.translate s).1.listing.code.take (session.translate s).1.searched =
      session.listing.code.take session.searched := by
    have hGrown := code_feed session (.statement s)
    rw [Session.feed] at hGrown
    rw [hSearched, hGrown, List.take_append_of_le_length h.le_length]
  refine ⟨searched_le_feed h.le_length (.statement s), fun l => ?_, fun l => ?_, ?_, h.meets⟩
  · rw [hTake]
    exact h.count_le l
  · rw [hLabels, hTake]
    exact h.mem_labels l
  · rw [hLabels, hAhead]
    exact h.ahead

theorem of_ok {s : Statement} {code : Code} {next : Scope}
    (hCode : s.command.code session.scope = .ok (code, next)) :
    (session.translate s).1.Knows (passed ++
      s.command.passedOver (Code.labels session.listing.code) session.scope) := by
  obtain ⟨-, hLabels, hEnd⟩ := translate_of_ok h.le_length hCode
  rw [declare_append h.ahead, ← Command.emitted_of_ok hCode] at hLabels
  have hAll : Code.labels ((session.translate s).1.listing.code.take
      (session.translate s).1.searched) =
        Code.labels session.listing.code ++ Code.labels (s.command.emitted session.scope) := by
    have hGrown := code_feed session (.statement s)
    rw [Session.feed] at hGrown
    rw [hEnd, List.take_length, hGrown, Code.labels_append, Input.labels_code]
  have hLe : ∀ l, passed.count l ≤ (Code.labels session.listing.code).count l := fun l =>
    Nat.le_trans (h.count_le l)
      (List.Sublist.count_le l ((List.take_sublist _ _).filterMap Instruction.declared?))
  have hNewLe := s.command.count_passedOver_le (Code.labels session.listing.code) session.scope
  refine ⟨searched_le_feed h.le_length (.statement s), fun l => ?_, fun l => ?_, ?_,
    fun l hMem => ?_⟩
  · rw [hAll, List.count_append, List.count_append]
    exact Nat.add_le_add (hLe l) (hNewLe l)
  · rw [hAll, hLabels, mem_declare_emitted s.command (h.trueSymbol_mem_iff _),
      h.mem_declare_unsearched, List.count_append, List.count_append]
    have := hLe l
    have := hNewLe l
    omega
  · rw [unsearched_of_searched hEnd]
    rfl
  · rcases List.mem_append.mp hMem with hOld | hNew
    · exact h.meets l hOld
    · exact ⟨session.scope, Command.eq_endSymbol_of_passedOver hNew⟩

/-- **Every input keeps what a session knows**, whatever its answer is. -/
theorem feed (input : Input) :
    (session.feed input).1.Knows (passed ++ session.passedOverBy input) := by
  cases input with
  | file name =>
    rw [passedOverBy, List.append_nil]
    exact ⟨h.le_length, h.count_le, h.mem_labels, h.ahead, h.meets⟩
  | statement s =>
    cases hCode : s.command.code session.scope with
    | ok pair => exact h.of_ok hCode
    | error fault =>
      have hNone : session.passedOverBy (.statement s) = [] := by
        obtain ⟨position, command⟩ := s
        cases command with
        | compare op => cases hCode
        | _ => rfl
      rw [hNone, List.append_nil]
      exact h.of_error hCode

omit h in
theorem feedEach {inputs : List Input} : ∀ {session : Session} {passed : List String},
    session.Knows passed →
      (session.feedEach inputs).1.Knows (passed ++ session.passedOver inputs) := by
  induction inputs with
  | nil =>
    intro session passed h
    rw [passedOver, List.append_nil]
    exact h
  | cons input rest ih =>
    intro session passed h
    rw [passedOver, ← List.append_assoc]
    exact ih (h.feed input)

end Knows

theorem passedOver_sublist_generated (inputs : List Input) : ∀ session : Session,
    (session.passedOver inputs).Sublist (session.generated inputs) := by
  induction inputs with
  | nil => exact fun _ => List.Sublist.slnil
  | cons input rest ih =>
    intro session
    refine List.Sublist.append ?_ (ih (session.feed input).1)
    rw [generatedBy_eq]
    cases input with
    | file name => exact List.nil_sublist _
    | statement s =>
      obtain ⟨position, command⟩ := s
      cases command with
      | compare op =>
        rw [passedOverBy, Command.passedOver]
        split
        · exact (List.Sublist.refl [session.scope.endSymbol]).cons session.scope.trueSymbol
        · exact List.nil_sublist _
      | _ => exact List.nil_sublist _

theorem nodup_passedOver (inputs : List Input) (session : Session) :
    (session.passedOver inputs).Nodup :=
  (nodup_generated inputs session).sublist (session.passedOver_sublist_generated inputs)

theorem searched_feedEach_of_ok {session : Session} (inputs : List Input) (s : Statement)
    {code : Code} {next : Scope} (hSearched : session.searched ≤ session.listing.code.length)
    (hCode : s.command.code (session.feedEach inputs).1.scope = .ok (code, next)) :
    (session.feedEach (inputs ++ [.statement s])).1.searched =
      (session.feedEach (inputs ++ [.statement s])).1.listing.code.length := by
  rw [feedEach_append]
  exact (translate_of_ok (searched_le_feedEach hSearched) hCode).2.2

end Session

/-- **The labels that a session knows, also after errors.**  Behind every run that goes on after
errors the set holds the labels of the searched code but those that were passed over.  So it holds
all of them if and only if each label that was passed over is declared at another place as well.  A
statement is refused there for the first label of its code that is declared already, not counting
what was passed over; and it is refused as soon as its code has such a label.  What a comparison has
passed over is the label of its end, exactly if it is refused for the label of its branch. -/
theorem labels_known_but_passed_over (options : Options) (inputs : List Input) :
    let first := Session.start options
    let last := (first.feedEach inputs).1
    let passed := first.passedOver inputs
    let searched := Code.labels (last.listing.code.take last.searched)
    let declared := Code.labels last.listing.code
    (∀ label, label ∈ last.labels ↔ label ∈ searched.diff passed) ∧
    ((∀ label, label ∈ last.labels ↔ label ∈ searched) ↔
      ∀ label ∈ passed, 1 < searched.count label) ∧
    ∀ s : Statement,
      let new := Code.labels (s.command.emitted last.scope)
      (∀ position label, (last.translate s).2 = some (.labelTaken position label) ↔
        position = s.position ∧ FirstRepeat (declared.diff passed) new label) ∧
      ((∃ label ∈ new, label ∈ declared.diff passed) →
        ∃ label, (last.translate s).2 = some (.labelTaken s.position label)) ∧
      ∀ op, s.command = .compare op →
        (last.scope.endSymbol ∈ last.passedOverBy (.statement s) ↔
          (last.translate s).2 = some (.labelTaken s.position last.scope.trueSymbol)) := by
  intro first last passed searched declared
  have hKnows : last.Knows passed := (Session.knows_start options).feedEach
  have hOnce : passed.Nodup := Session.nodup_passedOver inputs first
  refine ⟨fun label => ?_, ⟨fun hAll label hPassed => ?_, fun hTwice label => ?_⟩, fun s => ?_⟩
  · rw [hKnows.mem_labels, ← List.count_pos_iff, List.count_diff, Nat.sub_pos_iff_lt]
  · have hCount : passed.count label = 1 := by rw [hOnce.count, if_pos hPassed]
    have hSearched : label ∈ searched := by
      rw [← List.count_pos_iff]
      exact Nat.lt_of_lt_of_le (by rw [hCount]; exact Nat.one_pos) (hKnows.count_le label)
    have hMore := (hKnows.mem_labels label).mp ((hAll label).mpr hSearched)
    rwa [hCount] at hMore
  · rw [hKnows.mem_labels]
    by_cases hPassed : label ∈ passed
    · have hMore := hTwice label hPassed
      rw [hOnce.count, if_pos hPassed]
      exact iff_of_true hMore (List.count_pos_iff.mp (Nat.zero_lt_of_lt hMore))
    · rw [List.count_eq_zero.mpr hPassed, List.count_pos_iff]
  · refine ⟨fun position label => hKnows.translate_eq_labelTaken, ?_, ?_⟩
    · rintro ⟨label, hNew, hKnown⟩
      obtain ⟨before, rest, hSplit⟩ := List.append_of_mem hNew
      obtain ⟨found, hFound⟩ := exists_firstRepeat.mpr
        ⟨before, label, rest, hSplit, List.mem_append_left before hKnown⟩
      exact ⟨found, hKnows.translate_eq_labelTaken.mpr ⟨rfl, hFound⟩⟩
    · obtain ⟨position, command⟩ := s
      rintro op rfl
      exact hKnows.endSymbol_mem_passedOver_iff op position

/-- The end of a comparison whose branch has a label of the source: it stands in the searched code,
but not in the set, and a label of its name is accepted. -/
theorem end_label_declared_again :
    let inputs : List Input :=
      [.statement ⟨⟨"Main.vm", 1⟩, .label "cmp.true.0"⟩, .statement ⟨⟨"Main.vm", 2⟩, .compare .eq⟩]
    let session := ((Session.start ⟨false, false⟩).feedEach inputs).1
    "Sys.init$cmp.end.0" ∈ Code.labels (session.listing.code.take session.searched) ∧
      "Sys.init$cmp.end.0" ∉ session.labels ∧
      (session.translate ⟨⟨"Main.vm", 3⟩, .label "cmp.end.0"⟩).2 = none := by
  intro inputs session
  have hPassed : (Session.start ⟨false, false⟩).passedOver inputs = ["Sys.init$cmp.end.0"] := by
    simp only [inputs, Session.passedOver, Session.passedOverBy, Session.code_feed,
      Session.scope_feed]
    decide
  have hDeclared : Code.labels session.listing.code =
      ["Sys.init$cmp.true.0", "Sys.init$cmp.true.0", "Sys.init$cmp.end.0"] := by
    rw [Session.code_feedEach]
    decide
  have hNew : Code.labels ((Command.label "cmp.end.0").emitted session.scope) =
      ["Sys.init$cmp.end.0"] := by
    rw [Session.scope_feedEach]
    decide
  have hLe : session.searched ≤ session.listing.code.length :=
    Session.searched_le_feedEach (Session.searched_le_start _)
  have hCompare : ∀ scope : Scope, (Command.compare .eq).code scope = .ok
      (Comparison.eq.code scope.trueSymbol scope.endSymbol, scope.afterComparison) :=
    fun _ => rfl
  have hEnd : session.searched = session.listing.code.length := by
    have hSession : session = ((Session.start ⟨false, false⟩).feedEach
        ([.statement ⟨⟨"Main.vm", 1⟩, .label "cmp.true.0"⟩] ++
          [.statement ⟨⟨"Main.vm", 2⟩, .compare .eq⟩])).1 := rfl
    rw [hSession]
    exact Session.searched_feedEach_of_ok _ _ (Session.searched_le_start _) (hCompare _)
  obtain ⟨hSet, -, hStatements⟩ := labels_known_but_passed_over ⟨false, false⟩ inputs
  have hRefused := (hStatements ⟨⟨"Main.vm", 3⟩, .label "cmp.end.0"⟩).1
  rw [hPassed] at hSet hRefused
  have hAll : session.listing.code.take session.searched = session.listing.code := by
    rw [hEnd, List.take_length]
  have hKnown : (Code.labels session.listing.code).diff ["Sys.init$cmp.end.0"] =
      ["Sys.init$cmp.true.0", "Sys.init$cmp.true.0"] := by
    rw [hDeclared]
    decide
  refine ⟨?_, ?_, ?_⟩
  · rw [hAll, hDeclared]
    decide
  · rw [hSet, hAll, hKnown]
    decide
  · have hLabel : (Command.label "cmp.end.0").code session.scope =
        .ok ([.label (session.scope.labelSymbol "cmp.end.0")], session.scope) := rfl
    have hAnswer : (session.translate ⟨⟨"Main.vm", 3⟩, .label "cmp.end.0"⟩).2 = _ :=
      (Session.translate_of_ok hLe hLabel).1
    rw [hAnswer, Option.map_eq_none_iff, Option.eq_none_iff_forall_ne_some]
    intro found hTaken
    rw [hTaken] at hAnswer
    obtain ⟨-, hRepeat⟩ := (hRefused ⟨"Main.vm", 3⟩ found).mp hAnswer
    rw [hKnown, hNew, firstRepeat_cons] at hRepeat
    rcases hRepeat with ⟨hMem, -⟩ | ⟨-, hNone⟩
    · revert hMem
      decide
    · exact not_firstRepeat_nil _ _ hNone

end HackVm
