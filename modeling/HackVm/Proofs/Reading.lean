import Mathlib.Data.List.Forall2
import HackVm.Source

/-!
# What files are read as

A file is told by the lines of its text (`Source.HasLine`): it is read if each of them is a command,
and its statements are then the commands, each with its position.  Otherwise its error is that of the
first line that is none.

* `mapM_eq_ok_iff`, `mapM_eq_error_iff`: a list is read element by element, up to the first error.
* `Source.read_eq_ok_iff`, `Source.read_eq_error_iff`: one file.
* `readSources_eq_ok_iff`, `readSources_eq_error_iff`: several files.
-/

namespace HackVm

open Text

/-! ### Reading a list -/

section Traversal

variable {α β ε : Type} {f : α → Except ε β}

theorem mapM_eq_ok_iff {list : List α} : ∀ {results : List β},
    list.mapM f = .ok results ↔ List.Forall₂ (fun a b => f a = .ok b) list results := by
  induction list with
  | nil =>
    intro results
    rw [List.forall₂_nil_left_iff]
    exact ⟨fun h => (Except.ok.inj h).symm, fun h => congrArg Except.ok h.symm⟩
  | cons a list ih =>
    intro results
    rw [List.mapM_cons, List.forall₂_cons_left_iff]
    cases hHead : f a with
    | error fault =>
      refine iff_of_false nofun ?_
      rintro ⟨b, rest, hOk, -⟩
      cases hOk
    | ok b =>
      cases hRest : list.mapM f with
      | error fault =>
        refine iff_of_false nofun ?_
        rintro ⟨c, rest, -, hAll, -⟩
        rw [ih.mpr hAll] at hRest
        cases hRest
      | ok rest =>
        constructor
        · intro h
          exact ⟨b, rest, rfl, ih.mp hRest, (Except.ok.inj h).symm⟩
        · rintro ⟨c, others, hOk, hAll, rfl⟩
          rw [ih.mpr hAll] at hRest
          rw [← Except.ok.inj hOk, ← Except.ok.inj hRest]
          rfl

/-- **The first error is the result.** -/
theorem mapM_eq_error_iff {fault : ε} {list : List α} :
    list.mapM f = .error fault ↔ ∃ before a after, list = before ++ a :: after ∧
      (∀ b ∈ before, ∃ result, f b = .ok result) ∧ f a = .error fault := by
  induction list with
  | nil =>
    refine iff_of_false nofun ?_
    rintro ⟨before, a, after, hSplit, -⟩
    simp at hSplit
  | cons first list ih =>
    rw [List.mapM_cons]
    cases hFirst : f first with
    | error other =>
      constructor
      · intro h
        exact ⟨[], first, list, rfl, nofun, hFirst.trans (congrArg _ (Except.error.inj h))⟩
      · rintro ⟨before, a, after, hSplit, hBefore, ha⟩
        cases before with
        | nil =>
          obtain ⟨rfl, -⟩ := List.cons.inj hSplit
          rw [hFirst] at ha
          rw [Except.error.inj ha]
          rfl
        | cons b before =>
          obtain ⟨rfl, -⟩ := List.cons.inj hSplit
          obtain ⟨result, hResult⟩ := hBefore _ List.mem_cons_self
          rw [hFirst] at hResult
          cases hResult
    | ok result =>
      have hTail : (do let rest ← list.mapM f; pure (result :: rest)) = .error fault ↔
          list.mapM f = .error fault := by
        cases list.mapM f with
        | error other => exact ⟨fun h => congrArg Except.error (Except.error.inj h),
            fun h => congrArg Except.error (Except.error.inj h)⟩
        | ok rest => constructor <;> (intro h; cases h)
      refine hTail.trans (ih.trans ?_)
      constructor
      · rintro ⟨before, a, after, rfl, hBefore, ha⟩
        exact ⟨first :: before, a, after, rfl,
          List.forall_mem_cons.mpr ⟨⟨result, hFirst⟩, hBefore⟩, ha⟩
      · rintro ⟨before, a, after, hSplit, hBefore, ha⟩
        cases before with
        | nil =>
          obtain ⟨rfl, -⟩ := List.cons.inj hSplit
          rw [hFirst] at ha
          cases ha
        | cons b before =>
          obtain ⟨-, rfl⟩ := List.cons.inj hSplit
          exact ⟨before, a, after, rfl, fun c hc => hBefore c (List.mem_cons_of_mem _ hc), ha⟩

theorem exists_of_forall₂ {R : α → β → Prop} {list : List α} {results : List β}
    (h : List.Forall₂ R list results) {a : α} (ha : a ∈ list) : ∃ b ∈ results, R a b := by
  induction h with
  | nil => cases ha
  | @cons first b list results hFirst _ ih =>
    rcases List.mem_cons.mp ha with rfl | ha
    · exact ⟨b, List.mem_cons_self, hFirst⟩
    · obtain ⟨c, hc, hR⟩ := ih ha
      exact ⟨c, List.mem_cons_of_mem _ hc, hR⟩

/-- Lists that belong together are cut at the same place. -/
theorem forall₂_append_cons {R : α → β → Prop} {list : List α} {front back : List β} {b : β}
    (h : List.Forall₂ R list (front ++ b :: back)) : ∃ before a after,
      list = before ++ a :: after ∧ List.Forall₂ R before front ∧ R a b ∧
        List.Forall₂ R after back := by
  have hBefore := List.forall₂_take_append list front (b :: back) h
  have hBehind := List.forall₂_drop_append list front (b :: back) h
  obtain ⟨a, after, hHead, hAfter, hDrop⟩ := List.forall₂_cons_right_iff.mp hBehind
  refine ⟨list.take front.length, a, after, ?_, hBefore, hHead, hAfter⟩
  rw [← hDrop, List.take_append_drop]

end Traversal

/-! ### Lines -/

namespace Source

variable {source : Source}

/-- The line of this number, counted from one, has a text: what stands on it before a comment, without
the blanks around it, if anything is left. -/
def HasLine (source : Source) (number : Nat) (text : List Char) : Prop :=
  ∃ line, 1 ≤ number ∧ (split '\n' source.text.toList)[number - 1]? = some line ∧
    content line = text ∧ text ≠ []

/-- Every line with a text is a command. -/
def Parses (source : Source) : Prop :=
  ∀ number text, source.HasLine number text → ∃ command, Command.read text = .ok command

/-- The first line of a file that is no command. -/
structure FirstFault (source : Source) (number : Nat) (text : List Char) (fault : LineFault) :
    Prop where
  hasLine : source.HasLine number text
  read_eq : Command.read text = .error fault
  first : ∀ earlier other, earlier < number → source.HasLine earlier other →
    ∃ command, Command.read other = .ok command

/-- The statements of a file are the commands on its lines, each with its position, in the order of
the lines. -/
structure IsPart (source : Source) (part : Part) : Prop where
  name_eq : part.name = source.name
  mem_iff : ∀ s, s ∈ part.statements ↔ ∃ number text, source.HasLine number text ∧
    Command.read text = .ok s.command ∧ s.position = ⟨source.fileName, number⟩
  ordered : part.statements.Pairwise fun s t => s.position.line < t.position.line

theorem mem_contents {text : List Char} {number : Nat} :
    (text, number) ∈ contents source.text.toList ↔ source.HasLine number text := by
  rw [contents, List.mem_filterMap]
  constructor
  · rintro ⟨⟨line, k⟩, hMem, hSome⟩
    obtain ⟨hPos, hLine⟩ := List.mem_zipIdx_iff_le_and_getElem?_sub.mp hMem
    simp only at hSome
    split at hSome
    · cases hSome
    · next hText =>
      cases hSome
      exact ⟨line, hPos, hLine, rfl, hText⟩
  · rintro ⟨line, hPos, hLine, rfl, hText⟩
    refine ⟨(line, number), List.mem_zipIdx_iff_le_and_getElem?_sub.mpr ⟨hPos, hLine⟩, ?_⟩
    exact if_neg hText

theorem pairwise_contents (text : List Char) :
    (contents text).Pairwise fun line other => line.2 < other.2 := by
  have hNumbers : (((split '\n' text).zipIdx 1).map Prod.snd).Pairwise (· < ·) := by
    rw [List.zipIdx_map_snd]
    exact List.pairwise_lt_range'
  rw [contents, List.pairwise_filterMap]
  refine (List.pairwise_map.mp hNumbers).imp ?_
  rintro ⟨line, k⟩ ⟨other, l⟩ hLt b hb c hc
  simp only at hb hc
  split at hb
  · cases hb
  · split at hc
    · cases hc
    · cases hb
      cases hc
      exact hLt

theorem readLine_eq_ok_iff {position : Position} {line : List Char} {s : Statement} :
    readLine position line = .ok s ↔ Command.read line = .ok s.command ∧ s.position = position := by
  obtain ⟨other, command⟩ := s
  rw [readLine]
  cases hRead : Command.read line with
  | error fault =>
    refine iff_of_false nofun ?_
    rintro ⟨hOk, -⟩
    cases hOk
  | ok found =>
    constructor
    · intro h
      cases h
      exact ⟨rfl, rfl⟩
    · rintro ⟨hOk, rfl⟩
      cases hOk
      rfl

theorem readLine_eq_error_iff {position : Position} {line : List Char} {error : Error} :
    readLine position line = .error error ↔ ∃ fault, Command.read line = .error fault ∧
      error = .line position (String.ofList line) fault := by
  rw [readLine]
  cases hRead : Command.read line with
  | error fault =>
    constructor
    · intro h
      cases h
      exact ⟨fault, rfl, rfl⟩
    · rintro ⟨other, hError, rfl⟩
      cases hError
      rfl
  | ok found =>
    refine iff_of_false nofun ?_
    rintro ⟨fault, hError, -⟩
    cases hError

theorem read_eq_ok {part : Part} : source.read = .ok part ↔
    part.name = source.name ∧ readText source.fileName source.text = .ok part.statements := by
  rw [read]
  cases hText : readText source.fileName source.text with
  | error error =>
    refine iff_of_false nofun ?_
    rintro ⟨-, hOk⟩
    cases hOk
  | ok statements =>
    constructor
    · intro h
      cases h
      exact ⟨rfl, rfl⟩
    · rintro ⟨hName, hOk⟩
      obtain ⟨name, others⟩ := part
      cases hName
      cases hOk
      rfl

theorem read_eq_error {error : Error} : source.read = .error error ↔
    readText source.fileName source.text = .error error := by
  rw [read]
  cases hText : readText source.fileName source.text with
  | error other => constructor <;> (intro h; cases h; rfl)
  | ok statements => constructor <;> (intro h; cases h)

/-- **The error of a file is that of its first line that is no command.** -/
theorem read_eq_error_iff {error : Error} :
    source.read = .error error ↔ ∃ number text fault, source.FirstFault number text fault ∧
      error = .line ⟨source.fileName, number⟩ (String.ofList text) fault := by
  have hOrder := pairwise_contents source.text.toList
  rw [read_eq_error, readText, mapM_eq_error_iff]
  constructor
  · rintro ⟨before, ⟨text, number⟩, after, hSplit, hBefore, hError⟩
    obtain ⟨fault, hFault, rfl⟩ := readLine_eq_error_iff.mp hError
    have hMem : (text, number) ∈ contents source.text.toList := by
      rw [hSplit]
      exact List.mem_append_right _ List.mem_cons_self
    refine ⟨number, text, fault, ⟨mem_contents.mp hMem, hFault, ?_⟩, rfl⟩
    intro earlier other hLt hOther
    have hThere := mem_contents.mpr hOther
    rw [hSplit] at hThere hOrder
    rcases List.mem_append.mp hThere with hFront | hBack
    · obtain ⟨s, hs⟩ := hBefore _ hFront
      exact ⟨s.command, (readLine_eq_ok_iff.mp hs).1⟩
    · -- a line that stands behind has a greater number
      have hBehind := (List.pairwise_cons.mp (List.pairwise_append.mp hOrder).2.1).1
      rcases List.mem_cons.mp hBack with hSame | hAfter
      · cases hSame
        exact absurd hLt (Nat.lt_irrefl _)
      · exact absurd hLt (Nat.lt_asymm (hBehind _ hAfter))
  · rintro ⟨number, text, fault, hFirst, rfl⟩
    obtain ⟨before, after, hSplit⟩ := List.append_of_mem (mem_contents.mpr hFirst.hasLine)
    refine ⟨before, (text, number), after, hSplit, ?_,
      readLine_eq_error_iff.mpr ⟨fault, hFirst.read_eq, rfl⟩⟩
    rintro ⟨other, earlier⟩ hMem
    have hLine : source.HasLine earlier other := by
      apply mem_contents.mp
      rw [hSplit]
      exact List.mem_append_left _ hMem
    rw [hSplit] at hOrder
    have hLt : earlier < number :=
      (List.pairwise_append.mp hOrder).2.2 _ hMem _ List.mem_cons_self
    obtain ⟨command, hCommand⟩ := hFirst.first earlier other hLt hLine
    exact ⟨⟨⟨source.fileName, earlier⟩, command⟩, readLine_eq_ok_iff.mpr ⟨hCommand, rfl⟩⟩

theorem exists_read_of_parses (h : source.Parses) : ∃ part, source.read = .ok part := by
  cases hRead : source.read with
  | ok part => exact ⟨part, rfl⟩
  | error error =>
    obtain ⟨number, text, fault, hFirst, -⟩ := read_eq_error_iff.mp hRead
    obtain ⟨command, hCommand⟩ := h number text hFirst.hasLine
    rw [hFirst.read_eq] at hCommand
    cases hCommand

theorem isPart_of_read {part : Part} (h : source.read = .ok part) :
    source.Parses ∧ source.IsPart part := by
  obtain ⟨hName, hText⟩ := read_eq_ok.mp h
  have hAll := mapM_eq_ok_iff.mp hText
  refine ⟨?_, hName, ?_, ?_⟩
  · intro number text hLine
    obtain ⟨s, -, hs⟩ := exists_of_forall₂ hAll (mem_contents.mpr hLine)
    exact ⟨s.command, (readLine_eq_ok_iff.mp hs).1⟩
  · intro s
    constructor
    · intro hMem
      obtain ⟨⟨text, number⟩, hLine, hs⟩ := exists_of_forall₂ hAll.flip hMem
      exact ⟨number, text, mem_contents.mp hLine, readLine_eq_ok_iff.mp hs⟩
    · rintro ⟨number, text, hLine, hs⟩
      obtain ⟨t, ht, hRead⟩ := exists_of_forall₂ hAll (mem_contents.mpr hLine)
      have hSame : t = s := Except.ok.inj (hRead.symm.trans (readLine_eq_ok_iff.mpr hs))
      exact hSame ▸ ht
  · have hLines : (contents source.text.toList).map Prod.snd =
        part.statements.map (·.position.line) := by
      rw [← List.forall₂_eq_eq_eq, List.forall₂_map_left_iff, List.forall₂_map_right_iff]
      refine hAll.imp ?_
      rintro ⟨text, number⟩ s hs
      rw [(readLine_eq_ok_iff.mp hs).2]
    have hOrder := List.pairwise_map.mpr (pairwise_contents source.text.toList)
    rw [hLines] at hOrder
    exact List.pairwise_map.mp hOrder

/-- The lines of a file determine its statements. -/
theorem IsPart.unique {part other : Part} (h : source.IsPart part) (hOther : source.IsPart other) :
    part = other := by
  obtain ⟨name, statements⟩ := part
  obtain ⟨name', statements'⟩ := other
  have hName : name = name' := h.name_eq.trans hOther.name_eq.symm
  have hNodup : ∀ {list : List Statement},
      (list.Pairwise fun s t => s.position.line < t.position.line) → list.Nodup := by
    intro list hOrdered
    refine hOrdered.imp fun hLt hEq => ?_
    rw [hEq] at hLt
    exact Nat.lt_irrefl _ hLt
  have hPerm : statements.Perm statements' :=
    (List.perm_ext_iff_of_nodup (hNodup h.ordered) (hNodup hOther.ordered)).mpr
      fun s => (h.mem_iff s).trans (hOther.mem_iff s).symm
  have hStatements : statements = statements' :=
    hPerm.eq_of_pairwise (fun _ _ _ _ hLt hGt => absurd hLt (Nat.lt_asymm hGt)) h.ordered
      hOther.ordered
  rw [hName, hStatements]

/-- **What a file is read as.** -/
theorem read_eq_ok_iff {part : Part} :
    source.read = .ok part ↔ source.Parses ∧ source.IsPart part := by
  refine ⟨isPart_of_read, ?_⟩
  rintro ⟨hParses, hPart⟩
  obtain ⟨other, hRead⟩ := exists_read_of_parses hParses
  rw [hRead, hPart.unique (isPart_of_read hRead).2]

end Source

theorem readSources_eq_ok_iff {sources : List Source} {parts : List Part} :
    readSources sources = .ok parts ↔
      (∀ source ∈ sources, source.Parses) ∧ List.Forall₂ Source.IsPart sources parts := by
  rw [readSources, mapM_eq_ok_iff, ← List.forall₂_and_left]
  simp only [Source.read_eq_ok_iff]

theorem readSources_eq_error_iff {sources : List Source} {error : Error} :
    readSources sources = .error error ↔ ∃ before source after, sources = before ++ source :: after ∧
      (∀ other ∈ before, other.Parses) ∧ source.read = .error error := by
  rw [readSources, mapM_eq_error_iff]
  have hParses : ∀ source : Source, (∃ part, source.read = .ok part) ↔ source.Parses := by
    intro source
    constructor
    · rintro ⟨part, hRead⟩
      exact (Source.isPart_of_read hRead).1
    · exact Source.exists_read_of_parses
  simp only [hParses]

theorem exists_parts {sources : List Source} (h : ∀ source ∈ sources, source.Parses) :
    ∃ parts, List.Forall₂ Source.IsPart sources parts := by
  cases hRead : readSources sources with
  | ok parts => exact ⟨parts, (readSources_eq_ok_iff.mp hRead).2⟩
  | error error =>
    obtain ⟨before, source, after, rfl, -, hError⟩ := readSources_eq_error_iff.mp hRead
    obtain ⟨part, hPart⟩ := Source.exists_read_of_parses
      (h source (List.mem_append_right _ List.mem_cons_self))
    rw [hError] at hPart
    cases hPart

end HackVm
