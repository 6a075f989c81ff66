import Mathlib.Data.List.Nodup
import HackVm.Proofs.Input

/-!
# Labels are declared once

A session refuses a label that is declared already.  It keeps the labels it found in a set, and the
set lags behind the code: the label of the bootstrap is in the code from the start, but it is
searched for only with the first statement.  What the set and the unsearched code hold together are
the labels of the code (`Session.Searched`), and as long as no statement failed these are distinct.

* `FirstRepeat taken new label`: the label is the first of `new` that was declared before it,
  in `taken` or in `new`.
* `Session.translate_eq_labelTaken`: in a session without failures, a statement is refused for a
  label exactly if that label is the first repeat of its code.
* `duplicate_labels_rejected_exactly`: the same for a statement anywhere in a program, where the
  labels taken are those of the code before it; accepted programs have distinct labels, and a
  program with distinct labels is never refused for one.
* `translateParts_isOk`: a program without misused segments and repeated labels is accepted.
-/

namespace HackVm

/-! ### The first repeat -/

/-- A label is the first of `new` that is declared already, in `taken` or earlier in `new`. -/
def FirstRepeat (taken new : List String) (label : String) : Prop :=
  ∃ before rest, new = before ++ label :: rest ∧ label ∈ taken ++ before ∧
    ∀ front other back, before = front ++ other :: back → other ∉ taken ++ front

theorem not_firstRepeat_nil (taken : List String) (label : String) :
    ¬ FirstRepeat taken [] label := by
  rintro ⟨before, rest, h, -⟩
  simp at h

theorem firstRepeat_cons {taken : List String} {x : String} {new : List String} {label : String} :
    FirstRepeat taken (x :: new) label ↔
      (x ∈ taken ∧ label = x) ∨ (x ∉ taken ∧ FirstRepeat (taken ++ [x]) new label) := by
  constructor
  · rintro ⟨before, rest, h, hMem, hFirst⟩
    cases before with
    | nil =>
      obtain ⟨rfl, rfl⟩ := List.cons.inj h
      exact Or.inl ⟨by simpa using hMem, rfl⟩
    | cons y before =>
      obtain ⟨rfl, rfl⟩ := List.cons.inj h
      refine Or.inr
        ⟨by simpa using hFirst [] x before rfl, before, rest, rfl, by simpa using hMem, ?_⟩
      intro front other back hSplit
      simpa using hFirst (x :: front) other back (by rw [hSplit, List.cons_append])
  · rintro (⟨hMem, rfl⟩ | ⟨hNot, before, rest, rfl, hMem, hFirst⟩)
    · exact ⟨[], new, rfl, by simpa using hMem, by simp⟩
    · refine ⟨x :: before, rest, rfl, by simpa using hMem, ?_⟩
      intro front other back hSplit
      cases front with
      | nil =>
        obtain ⟨rfl, -⟩ := List.cons.inj hSplit
        simpa using hNot
      | cons y front =>
        obtain ⟨rfl, rfl⟩ := List.cons.inj hSplit
        simpa using hFirst front other back rfl

theorem exists_firstRepeat {new : List String} : ∀ {taken : List String},
    (∃ label, FirstRepeat taken new label) ↔
      ∃ before label rest, new = before ++ label :: rest ∧ label ∈ taken ++ before := by
  induction new with
  | nil =>
    intro taken
    simp [not_firstRepeat_nil]
  | cons x new ih =>
    intro taken
    constructor
    · rintro ⟨label, before, rest, h, hMem, -⟩
      exact ⟨before, label, rest, h, hMem⟩
    · rintro ⟨before, label, rest, h, hMem⟩
      by_cases hx : x ∈ taken
      · exact ⟨x, firstRepeat_cons.mpr (Or.inl ⟨hx, rfl⟩)⟩
      · cases before with
        | nil =>
          obtain ⟨rfl, rfl⟩ := List.cons.inj h
          exact absurd (by simpa using hMem) hx
        | cons y before =>
          obtain ⟨rfl, rfl⟩ := List.cons.inj h
          obtain ⟨found, hFound⟩ :=
            (@ih (taken ++ [x])).mpr ⟨before, label, rest, rfl, by simpa using hMem⟩
          exact ⟨found, firstRepeat_cons.mpr (Or.inr ⟨hx, hFound⟩)⟩

/-- Distinct labels in front of the new ones may as well be counted as taken. -/
theorem firstRepeat_append {pending new : List String} {label : String} :
    ∀ {taken : List String}, (taken ++ pending).Nodup →
      (FirstRepeat taken (pending ++ new) label ↔ FirstRepeat (taken ++ pending) new label) := by
  induction pending with
  | nil => intro taken _; simp
  | cons x pending ih =>
    intro taken h
    have hx : x ∉ taken := fun hMem => List.disjoint_of_nodup_append h hMem (by simp)
    rw [List.cons_append, firstRepeat_cons, ih (by simpa using h), List.append_assoc]
    simp [hx]

theorem FirstRepeat.not_nodup {taken new : List String} {label : String}
    (h : FirstRepeat taken new label) : ¬ (taken ++ new).Nodup := by
  obtain ⟨before, rest, rfl, hMem, -⟩ := h
  intro hNodup
  rw [← List.append_assoc] at hNodup
  exact List.disjoint_of_nodup_append hNodup hMem (by simp)

theorem nodup_append_of_no_repeat {new : List String} : ∀ {taken : List String}, taken.Nodup →
    (∀ label, ¬ FirstRepeat taken new label) → (taken ++ new).Nodup := by
  induction new with
  | nil => intro taken h _; simpa using h
  | cons x new ih =>
    intro taken h hNone
    have hx : x ∉ taken := fun hMem => hNone x (firstRepeat_cons.mpr (Or.inl ⟨hMem, rfl⟩))
    have hTaken : (taken ++ [x]).Nodup :=
      List.Nodup.append h (List.nodup_singleton x) (by simpa using hx)
    have := ih hTaken fun label hLabel =>
      hNone label (firstRepeat_cons.mpr (Or.inr ⟨hx, hLabel⟩))
    simpa using this

namespace Session

/-! ### Declaring labels -/

theorem declare_eq_some {new : List String} {label : String} :
    ∀ {set : Std.HashSet String} {taken : List String}, (∀ l, l ∈ set ↔ l ∈ taken) →
      ((declare set new).2 = some label ↔ FirstRepeat taken new label) := by
  induction new with
  | nil =>
    intro set taken _
    simp [declare, not_firstRepeat_nil]
  | cons x new ih =>
    intro set taken hSet
    rw [firstRepeat_cons, declare]
    by_cases hx : x ∈ taken
    · rw [if_pos (Std.HashSet.mem_iff_contains.mp ((hSet x).mpr hx))]
      simp [hx, eq_comm]
    · rw [if_neg (fun h => hx ((hSet x).mp (Std.HashSet.mem_iff_contains.mpr h)))]
      rw [@ih _ (taken ++ [x])]
      · simp [hx]
      · intro l
        rw [Std.HashSet.mem_insert, hSet, List.mem_append, List.mem_singleton, beq_iff_eq]
        constructor
        · rintro (rfl | h)
          · exact Or.inr rfl
          · exact Or.inl h
        · rintro (h | rfl)
          · exact Or.inr h
          · exact Or.inl rfl

theorem mem_declare {new : List String} : ∀ {set : Std.HashSet String},
    (declare set new).2 = none → ∀ l, l ∈ (declare set new).1 ↔ l ∈ set ∨ l ∈ new := by
  induction new with
  | nil => intro set _ l; simp [declare]
  | cons x new ih =>
    intro set h l
    by_cases hx : set.contains x
    · rw [declare, if_pos hx] at h
      cases h
    · rw [declare, if_neg hx] at h ⊢
      rw [ih h, Std.HashSet.mem_insert, List.mem_cons, beq_iff_eq]
      constructor
      · rintro ((rfl | hl) | hl)
        · exact Or.inr (Or.inl rfl)
        · exact Or.inl hl
        · exact Or.inr (Or.inr hl)
      · rintro (hl | rfl | hl)
        · exact Or.inl (Or.inr hl)
        · exact Or.inl (Or.inl rfl)
        · exact Or.inr hl

/-! ### What a session knows of its labels -/

/-- The state of a session in which no statement has failed: the set holds the labels of the
searched code, and no label of the code is declared twice. -/
structure Searched (session : Session) : Prop where
  le_size : session.searched ≤ session.listing.code.length
  mem_labels : ∀ l, l ∈ session.labels ↔
    l ∈ Code.labels (session.listing.code.take session.searched)
  nodup : (Code.labels session.listing.code).Nodup

theorem searched_start (options : Options) : (start options).Searched := by
  have hCode := code_start options []
  simp only [inputs, List.flatMap_nil, inputsCode, List.append_nil] at hCode
  refine ⟨?_, ?_, ?_⟩
  · unfold start
    cases options.bootstrap <;> simp
  · intro l
    unfold start
    cases options.bootstrap <;> simp [Code.labels]
  · rw [hCode, programCode, prologue, programInputs]
    rcases options with ⟨_ | _, _ | _⟩ <;> decide

theorem Searched.inFile {session : Session} (h : session.Searched) (name : String) :
    (session.inFile name).Searched :=
  ⟨h.le_size, h.mem_labels, h.nodup⟩

/-- The labels that were found, and those still to be found before new code, are the labels of
the code so far. -/
theorem Searched.labels_take_drop {session : Session} (h : session.Searched) (new : Code) :
    Code.labels (session.listing.code.take session.searched) ++
        Code.labels ((session.listing.code ++ new).drop session.searched) =
      Code.labels session.listing.code ++ Code.labels new := by
  rw [List.drop_append_of_le_length h.le_size, Code.labels_append, ← List.append_assoc,
    ← Code.labels_append, List.take_append_drop]

/-- The labels that new code repeats are found although the search starts before it. -/
theorem Searched.firstRepeat_drop {session : Session} (h : session.Searched) (new : Code)
    (label : String) :
    FirstRepeat (Code.labels (session.listing.code.take session.searched))
        (Code.labels ((session.listing.code ++ new).drop session.searched)) label ↔
      FirstRepeat (Code.labels session.listing.code) (Code.labels new) label := by
  have hSplit : Code.labels (session.listing.code.take session.searched) ++
      Code.labels (session.listing.code.drop session.searched) =
        Code.labels session.listing.code := by
    rw [← Code.labels_append, List.take_append_drop]
  rw [List.drop_append_of_le_length h.le_size, Code.labels_append,
    firstRepeat_append (by rw [hSplit]; exact h.nodup), hSplit]

theorem labels_comment (listing : Listing) (text : String) :
    Code.labels (listing.comment text).code = Code.labels listing.code := by
  rw [Listing.code_comment, Code.labels_append]
  cases listing.comments <;> simp [Code.labels, Instruction.declared?]

theorem Searched.comment {session : Session} (h : session.Searched) (text : String) :
    Searched { session with listing := session.listing.comment text } := by
  refine ⟨?_, ?_, ?_⟩
  · rw [Listing.code_comment, List.length_append]
    exact Nat.le_add_right_of_le h.le_size
  · intro l
    rw [Listing.code_comment, List.take_append_of_le_length h.le_size]
    exact h.mem_labels l
  · rw [labels_comment]
    exact h.nodup

/-! ### One statement -/

section Translate

variable {session : Session} {statement : Statement}

/-- **A statement is refused for the first label of its code that is declared already.** -/
theorem translate_eq_labelTaken (h : session.Searched) {position : Position} {label : String} :
    (session.translate statement).2 = some (.labelTaken position label) ↔
      position = statement.position ∧ FirstRepeat (Code.labels session.listing.code)
        (Code.labels (statement.command.emitted session.scope)) label := by
  have hComment := h.comment statement.command.text
  rw [translate]
  cases hCode : statement.command.code session.scope with
  | error fault =>
    have hEmpty : statement.command.emitted session.scope = [] := by
      simp [Command.emitted, hCode]
    simp [hEmpty, Code.labels, not_firstRepeat_nil]
  | ok pair =>
    obtain ⟨code, next⟩ := pair
    have hRepeat := hComment.firstRepeat_drop code label
    rw [labels_comment] at hRepeat
    rw [Command.emitted_of_ok hCode, ← hRepeat, ← declare_eq_some hComment.mem_labels]
    simp only [declareLabels, Listing.drop_eq, Listing.code_append, Option.map_eq_some_iff,
      Error.labelTaken.injEq]
    constructor
    · rintro ⟨found, hFound, rfl, rfl⟩
      exact ⟨rfl, hFound⟩
    · rintro ⟨rfl, hFound⟩
      exact ⟨label, hFound, rfl, rfl⟩

theorem Searched.translate (h : session.Searched) (hNone : (session.translate statement).2 = none) :
    (session.translate statement).1.Searched := by
  have hComment := h.comment statement.command.text
  rw [Session.translate] at hNone ⊢
  cases hCode : statement.command.code session.scope with
  | error fault =>
    rw [hCode] at hNone
    cases hNone
  | ok pair =>
    obtain ⟨code, next⟩ := pair
    rw [hCode] at hNone
    simp only [declareLabels, Listing.drop_eq, Listing.code_append, Option.map_eq_none_iff] at hNone
    simp only [declareLabels, Listing.drop_eq, Listing.code_append]
    refine ⟨Nat.le_of_eq (Listing.length_code _).symm, ?_, ?_⟩
    · intro l
      rw [mem_declare hNone, hComment.mem_labels, ← List.mem_append, hComment.labels_take_drop,
        ← Code.labels_append, ← Listing.length_code, List.take_length, Listing.code_append]
    · simp only [Listing.code_append]
      rw [Code.labels_append]
      refine nodup_append_of_no_repeat hComment.nodup fun label hLabel => ?_
      rw [← hComment.firstRepeat_drop, ← declare_eq_some hComment.mem_labels, hNone] at hLabel
      cases hLabel

/-- What else can go wrong is a misused segment. -/
theorem translate_eq_none (h : session.Searched) :
    (session.translate statement).2 = none ↔
      (statement.command.code session.scope).isOk ∧
        (Code.labels session.listing.code ++
          Code.labels (statement.command.emitted session.scope)).Nodup := by
  constructor
  · intro hNone
    cases hCode : statement.command.code session.scope with
    | error fault =>
      rw [translate, hCode] at hNone
      cases hNone
    | ok pair =>
      refine ⟨rfl, nodup_append_of_no_repeat h.nodup fun label hLabel => ?_⟩
      rw [(translate_eq_labelTaken h).mpr ⟨rfl, hLabel⟩] at hNone
      cases hNone
  · rintro ⟨hOk, hNodup⟩
    cases hError : (session.translate statement).2 with
    | none => rfl
    | some error =>
      cases hCode : statement.command.code session.scope with
      | error fault =>
        rw [hCode] at hOk
        cases hOk
      | ok pair =>
        obtain ⟨label, hLabel⟩ : ∃ label, error = .labelTaken statement.position label := by
          rw [translate, hCode] at hError
          obtain ⟨label, -, rfl⟩ := Option.map_eq_some_iff.mp hError
          exact ⟨label, rfl⟩
        rw [hLabel] at hError
        exact absurd hNodup ((translate_eq_labelTaken h).mp hError).2.not_nodup

end Translate

/-! ### A whole run -/

theorem Searched.feed {session : Session} {input : Input} (h : session.Searched)
    (hNone : (session.feed input).2 = none) : (session.feed input).1.Searched := by
  cases input with
  | file name => exact h.inFile name
  | statement s => exact h.translate hNone

theorem Searched.feedAll {inputs : List Input} : ∀ {session last : Session}, session.Searched →
    session.feedAll inputs = (last, none) → last.Searched := by
  induction inputs with
  | nil => intro session last h hRun; cases hRun; exact h
  | cons input rest ih =>
    intro session last h hRun
    obtain ⟨hNone, hRest⟩ := feedAll_cons_eq_none.mp hRun
    exact ih (h.feed hNone) hRest

/-- A run that ends with a label taken has that label twice in its code. -/
theorem Searched.not_nodup_of_labelTaken {inputs : List Input} {position : Position}
    {label : String} : ∀ {session last : Session}, session.Searched →
      session.feedAll inputs = (last, some (.labelTaken position label)) →
        ¬ (Code.labels last.listing.code).Nodup := by
  induction inputs with
  | nil => intro session last _ hRun; cases hRun
  | cons input rest ih =>
    intro session last h hRun
    rw [Session.feedAll] at hRun
    rcases hFeed : session.feed input with ⟨next, _ | error⟩
    · rw [hFeed] at hRun
      have hNone : (session.feed input).2 = none := by rw [hFeed]
      have hNext := h.feed hNone
      rw [hFeed] at hNext
      exact ih hNext hRun
    · rw [hFeed] at hRun
      obtain ⟨rfl, rfl⟩ := Prod.mk.inj hRun |>.imp id Option.some.inj
      cases input with
      | file name => cases hFeed
      | statement s =>
        have hRepeat := ((translate_eq_labelTaken h).mp (congrArg Prod.snd hFeed)).2
        have hCode := code_feed session (.statement s)
        rw [hFeed] at hCode
        rw [hCode, Code.labels_append, Input.labels_code]
        exact hRepeat.not_nodup

end Session

/-- Whether every command of the inputs keeps to the segments there are. -/
def inputsOk (scope : Scope) : List Input → Bool
  | [] => true
  | .file name :: rest => inputsOk (scope.inFile name) rest
  | .statement s :: rest => (s.command.code scope).isOk && inputsOk (scope.after s.command) rest

theorem Session.Searched.feedAll_isOk {inputs : List Input} : ∀ {session : Session},
    session.Searched → inputsOk session.scope inputs = true →
      (Code.labels (session.listing.code ++
        inputsCode session.listing.comments session.scope inputs)).Nodup →
        (session.feedAll inputs).2 = none := by
  induction inputs with
  | nil => intro session _ _ _; rfl
  | cons input rest ih =>
    intro session h hOk hNodup
    have hCode := code_feed session input
    rw [inputsCode, ← List.append_assoc, ← hCode] at hNodup
    have hNone : (session.feed input).2 = none := by
      cases input with
      | file name => rfl
      | statement s =>
        rw [inputsOk, Bool.and_eq_true] at hOk
        refine (translate_eq_none h).mpr ⟨hOk.1, ?_⟩
        rw [Code.labels_append, hCode, Code.labels_append, Input.labels_code] at hNodup
        exact (List.nodup_append.mp hNodup).1
    have hRest : inputsOk (input.after session.scope) rest = true := by
      cases input with
      | file name => exact hOk
      | statement s =>
        rw [inputsOk, Bool.and_eq_true] at hOk
        exact hOk.2
    have := ih (h.feed hNone) (by rw [scope_feed]; exact hRest)
      (by rw [comments_feed, scope_feed]; exact hNodup)
    rw [Session.feedAll]
    rcases hFeed : session.feed input with ⟨next, _ | error⟩
    · rw [hFeed] at this
      exact this
    · rw [hFeed] at hNone
      cases hNone

/-- **A program is accepted** if it misuses no segment and declares no label twice. -/
theorem translateParts_isOk {options : Options} {parts : List Part}
    (hOk : inputsOk {} (programInputs options parts) = true)
    (hNodup : (Code.labels (programCode options parts)).Nodup) :
    translateParts options parts = .ok (programCode options parts) := by
  have hStart : inputsOk (Session.start options).scope (inputs parts) = true := by
    rw [programInputs] at hOk
    unfold Session.start
    cases hBootstrap : options.bootstrap <;> rw [hBootstrap] at hOk <;> exact hOk
  have hNone : ((Session.start options).feedAll (inputs parts)).2 = none := by
    refine (Session.searched_start options).feedAll_isOk hStart ?_
    rw [Session.comments_start, Session.code_start]
    exact hNodup
  have hRun : translateParts options parts =
      .ok ((Session.start options).feedAll (inputs parts)).1.listing.code := by
    rw [translateParts, Session.translateParts_eq_feedAll]
    rcases hFeed : (Session.start options).feedAll (inputs parts) with ⟨last, _ | error⟩
    · rfl
    · rw [hFeed] at hNone
      cases hNone
  rw [hRun, translateParts_eq_ok hRun]

theorem translate_isOk {options : Options} {sources : List Source} {parts : List Part}
    (hRead : readSources sources = .ok parts)
    (hOk : inputsOk {} (programInputs options parts) = true)
    (hNodup : (Code.labels (programCode options parts)).Nodup) :
    translate options sources = .ok (programCode options parts) := by
  rw [translate, hRead]
  exact translateParts_isOk hOk hNodup

theorem Session.translateParts_eq_none {options : Options} {parts : List Part} {last : Session}
    (h : (Session.start options).translateParts parts = (last, none)) :
    last.Searched ∧ last.listing.code = programCode options parts := by
  rw [translateParts_eq_feedAll] at h
  refine ⟨(searched_start options).feedAll h, ?_⟩
  rw [code_feedAll _ h, comments_start, code_start]

theorem Session.inputsOk_of_feedAll {inputs : List Input} : ∀ {session last : Session},
    session.feedAll inputs = (last, none) → inputsOk session.scope inputs = true := by
  induction inputs with
  | nil => intro session last _; rfl
  | cons input rest ih =>
    intro session last h
    obtain ⟨hNone, hRest⟩ := feedAll_cons_eq_none.mp h
    have hBehind := ih hRest
    rw [scope_feed] at hBehind
    cases input with
    | file name => exact hBehind
    | statement s =>
      rw [inputsOk, Bool.and_eq_true]
      refine ⟨?_, hBehind⟩
      cases hCode : s.command.code session.scope with
      | ok pair => rfl
      | error fault =>
        rw [feed, translate, hCode] at hNone
        cases hNone

theorem session_of_translate {options : Options} {sources : List Source} {parts : List Part}
    {code : Code} (hRead : readSources sources = .ok parts)
    (h : translate options sources = .ok code) :
    ∃ last, (Session.start options).translateParts parts = (last, none) ∧
      last.listing.code = code := by
  rw [translate, hRead] at h
  have hParts : translateParts options parts = .ok code := h
  rw [translateParts] at hParts
  rcases hRun : (Session.start options).translateParts parts with ⟨last, _ | error⟩
  · rw [hRun] at hParts
    exact ⟨last, rfl, Except.ok.inj hParts⟩
  · rw [hRun] at hParts
    cases hParts

theorem inputsOk_of_translate {options : Options} {sources : List Source} {parts : List Part}
    {code : Code} (hRead : readSources sources = .ok parts)
    (h : translate options sources = .ok code) :
    inputsOk {} (programInputs options parts) = true := by
  obtain ⟨last, hRun, -⟩ := session_of_translate hRead h
  rw [Session.translateParts_eq_feedAll] at hRun
  have hInputs := Session.inputsOk_of_feedAll hRun
  rw [programInputs]
  unfold Session.start at hInputs
  cases hBootstrap : options.bootstrap <;> rw [hBootstrap] at hInputs <;> exact hInputs

theorem nodup_labels_of_translate {options : Options} {sources : List Source} {parts : List Part}
    {code : Code} (hRead : readSources sources = .ok parts)
    (h : translate options sources = .ok code) : (Code.labels code).Nodup := by
  obtain ⟨last, hRun, rfl⟩ := session_of_translate hRead h
  exact (Session.translateParts_eq_none hRun).1.nodup

/-! ### Exactness -/

/-- **A statement is refused for a label exactly if its code repeats one.**  The labels taken are
those of the code before it, the bootstrap included; the error names the statement's position and
the first label that is repeated.  So accepted programs declare distinct labels, and a program that
was refused for a label has one twice. -/
theorem duplicate_labels_rejected_exactly (options : Options) :
    (∀ parts name before session statement,
      (Session.start options).translateParts (parts ++ [⟨name, before⟩]) = (session, none) →
        let declared := Code.labels (programCode options (parts ++ [⟨name, before⟩]))
        let new := Code.labels (statement.command.emitted session.scope)
        ((∃ position label,
            (session.translate statement).2 = some (.labelTaken position label)) ↔
          ∃ earlier label rest, new = earlier ++ label :: rest ∧ label ∈ declared ++ earlier) ∧
        ∀ position label, (session.translate statement).2 = some (.labelTaken position label) →
          position = statement.position ∧ FirstRepeat declared new label) ∧
    (∀ parts code, translateParts options parts = .ok code → (Code.labels code).Nodup) ∧
    ∀ parts session position label,
      (Session.start options).translateParts parts =
        (session, some (.labelTaken position label)) →
      ¬ (Code.labels session.listing.code).Nodup := by
  refine ⟨?_, ?_, ?_⟩
  · intro parts name before session statement hRun declared new
    obtain ⟨hSearched, hCode⟩ := Session.translateParts_eq_none hRun
    have hTaken : ∀ position label,
        (session.translate statement).2 = some (.labelTaken position label) ↔
          position = statement.position ∧
            FirstRepeat (Code.labels session.listing.code) new label :=
      fun position label => Session.translate_eq_labelTaken hSearched
    rw [hCode] at hTaken
    refine ⟨?_, fun position label => (hTaken position label).mp⟩
    rw [← exists_firstRepeat]
    constructor
    · rintro ⟨position, label, h⟩
      exact ⟨label, ((hTaken position label).mp h).2⟩
    · rintro ⟨label, h⟩
      exact ⟨statement.position, label, (hTaken _ _).mpr ⟨rfl, h⟩⟩
  · intro parts code h
    rw [translateParts] at h
    rcases hRun : (Session.start options).translateParts parts with ⟨last, _ | error⟩
    · rw [hRun] at h
      rw [← Except.ok.inj h]
      exact (Session.translateParts_eq_none hRun).1.nodup
    · rw [hRun] at h
      cases h
  · intro parts session position label h
    rw [Session.translateParts_eq_feedAll] at h
    exact (Session.searched_start options).not_nodup_of_labelTaken h

/-- A label of the source that is the label of the bootstrap's call, behind another label. -/
theorem bootstrap_label_rejected :
    ∃ session, (Session.start {}).translateParts [⟨"Main", [⟨⟨"Main.vm", 1⟩, .label "A"⟩]⟩] =
        (session, none) ∧
      (session.translate ⟨⟨"Main.vm", 2⟩, .label "ret.0"⟩).2 =
        some (.labelTaken ⟨"Main.vm", 2⟩ "Sys.init$ret.0") := by
  obtain ⟨session, hRun⟩ : ∃ session, (Session.start {}).translateParts
      [⟨"Main", [⟨⟨"Main.vm", 1⟩, .label "A"⟩]⟩] = (session, none) := by
    rw [Session.translateParts_eq_feedAll]
    refine ⟨_, Prod.ext rfl ((Session.searched_start {}).feedAll_isOk (by decide) ?_)⟩
    rw [Session.comments_start, Session.code_start]
    decide
  have hScope : session.scope.labelSymbol "ret.0" = "Sys.init$ret.0" := by
    rw [Session.translateParts_eq_feedAll] at hRun
    rw [Session.scope_feedAll _ hRun]
    decide
  obtain ⟨hIff, hExact⟩ := (duplicate_labels_rejected_exactly {}).1 [] "Main" _ session
    ⟨⟨"Main.vm", 2⟩, .label "ret.0"⟩ hRun
  have hNew : Code.labels ((Command.label "ret.0").emitted session.scope) = ["Sys.init$ret.0"] :=
    congrArg (fun symbol => [symbol]) hScope
  simp only [hNew] at hIff hExact
  obtain ⟨position, label, hTaken⟩ := hIff.mpr ⟨[], "Sys.init$ret.0", [], rfl, by decide⟩
  obtain ⟨rfl, earlier, rest, hSplit, -⟩ := hExact position label hTaken
  refine ⟨session, hRun, ?_⟩
  have hLabel : label ∈ ["Sys.init$ret.0"] := by
    rw [hSplit]
    simp
  rw [hTaken, List.mem_singleton.mp hLabel]

end HackVm
