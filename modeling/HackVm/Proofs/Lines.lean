import Mathlib.Data.List.TakeWhile
import HackVm.Source

/-!
# The lines of a text

What the lines of a text are and what they say, told without the reader.  A line stands between two
line feeds or at an end of the text (`Text.LineAt`).  A line says what stands before its comment,
without the blanks around it (`Says`), and the comment starts at the first `//`.

* `Text.lineAt_iff`: the pieces of a text between its line feeds are its lines, counted from one.
* `says_iff`: a line says its `content` and nothing else.
* `contents_append`: what a text says, cut at a line feed, is what the upper part says and what the
  lower part says, with greater numbers.
-/

namespace HackVm

namespace Text

/-! ### Lines -/

/-- Where a line may start: at the start of the text or behind a line feed. -/
def LineStart (before : List Char) : Prop :=
  before = [] ∨ ∃ above, before = above ++ ['\n']

/-- Where a line may end: at the end of the text or before a line feed. -/
def LineEnd (after : List Char) : Prop :=
  after = [] ∨ ∃ below, after = '\n' :: below

/-- A line of a text with its number.  The number is that of the line feeds before it, and one. -/
def LineAt (text : List Char) (number : Nat) (line : List Char) : Prop :=
  ∃ before after, text = before ++ (line ++ after) ∧ LineStart before ∧ LineEnd after ∧
    '\n' ∉ line ∧ number = before.count '\n' + 1

theorem split_of_not_mem {separator : Char} {text : List Char} (h : separator ∉ text) :
    split separator text = [text] := by
  induction text with
  | nil => rfl
  | cons c text ih =>
    obtain ⟨hc, hText⟩ := not_or.mp (fun hMem => h (List.mem_cons.mpr hMem))
    rw [split_cons_of_ne (Ne.symm hc), ih hText]
    rfl

theorem length_split (separator : Char) (text : List Char) :
    (split separator text).length = text.count separator + 1 := by
  induction text with
  | nil => rfl
  | cons c text ih =>
    by_cases hc : c = separator
    · rw [hc, split_cons_self, List.length_cons, ih, List.count_cons_self]
    · rw [split_cons_of_ne hc, List.length_modifyHead, ih, List.count_cons_of_ne hc]

theorem split_cases (separator : Char) (text : List Char) :
    separator ∉ text ∨
      ∃ piece rest, text = piece ++ separator :: rest ∧ separator ∉ piece := by
  by_cases h : separator ∈ text
  · obtain ⟨piece, rest, hText, hPiece⟩ := List.eq_append_cons_of_mem h
    exact Or.inr ⟨piece, rest, hText, hPiece⟩
  · exact Or.inl h

theorem split_line {line after : List Char} (hLine : '\n' ∉ line) (hAfter : LineEnd after) :
    (split '\n' (line ++ after))[0]? = some line := by
  rcases hAfter with rfl | ⟨below, rfl⟩
  · rw [List.append_nil, split_of_not_mem hLine]
    rfl
  · rw [split_append, split_of_not_mem hLine]
    rfl

/-- What stands below a line is a line of the whole text, with a greater number. -/
theorem LineAt.below {text line first : List Char} {number : Nat} (h : LineAt text number line)
    (hFirst : '\n' ∉ first) : LineAt (first ++ '\n' :: text) (number + 1) line := by
  obtain ⟨before, after, rfl, hStart, hEnd, hLine, rfl⟩ := h
  refine ⟨first ++ '\n' :: before, after, by simp, Or.inr ?_, hEnd, hLine, ?_⟩
  · rcases hStart with rfl | ⟨above, rfl⟩
    · exact ⟨first, rfl⟩
    · exact ⟨first ++ '\n' :: above, by simp⟩
  · rw [List.count_append, List.count_cons_self, List.count_eq_zero.mpr hFirst, Nat.zero_add]

/-- **The lines of a text** are its pieces between the line feeds, counted from one. -/
theorem lineAt_iff {text line : List Char} {number : Nat} :
    LineAt text number line ↔ 1 ≤ number ∧ (split '\n' text)[number - 1]? = some line := by
  constructor
  · rintro ⟨before, after, rfl, hStart, hEnd, hLine, rfl⟩
    refine ⟨Nat.le_add_left 1 _, ?_⟩
    rw [Nat.add_sub_cancel]
    rcases hStart with rfl | ⟨above, rfl⟩
    · exact split_line hLine hEnd
    · have hCount : (above ++ ['\n']).count '\n' = (split '\n' above).length := by
        rw [length_split, List.count_append]
        rfl
      rw [List.append_assoc, List.singleton_append, split_append, hCount,
        List.getElem?_append_right (Nat.le_refl _), Nat.sub_self]
      exact split_line hLine hEnd
  · rintro ⟨hPos, hPiece⟩
    obtain ⟨k, rfl⟩ := Nat.exists_eq_add_of_le' hPos
    rw [Nat.add_sub_cancel] at hPiece
    clear hPos
    induction k generalizing text with
    | zero =>
      rcases split_cases '\n' text with hNone | ⟨piece, rest, rfl, hFirst⟩
      · rw [split_of_not_mem hNone] at hPiece
        obtain rfl := Option.some.inj hPiece
        exact ⟨[], [], by simp, Or.inl rfl, Or.inl rfl, hNone, rfl⟩
      · rw [split_append, split_of_not_mem hFirst] at hPiece
        obtain rfl := Option.some.inj hPiece
        exact ⟨[], '\n' :: rest, rfl, Or.inl rfl, Or.inr ⟨rest, rfl⟩, hFirst, rfl⟩
    | succ k ih =>
      rcases split_cases '\n' text with hNone | ⟨piece, rest, rfl, hFirst⟩
      · rw [split_of_not_mem hNone] at hPiece
        cases hPiece
      · rw [split_append, split_of_not_mem hFirst] at hPiece
        exact (ih hPiece).below hFirst

/-! ### Blanks -/

/-- A text between blanks, with none at its own ends. -/
structure Trimmed (line text : List Char) : Prop where
  between : ∃ left right, line = left ++ (text ++ right) ∧ (∀ c ∈ left, isBlank c = true) ∧
    ∀ c ∈ right, isBlank c = true
  head : ∀ c ∈ text.head?, isBlank c = false
  last : ∀ c ∈ text.getLast?, isBlank c = false

theorem dropWhile_isBlank_append {blanks text : List Char} (hBlanks : ∀ c ∈ blanks, isBlank c = true)
    (hHead : ∀ c ∈ text.head?, isBlank c = false) : (blanks ++ text).dropWhile isBlank = text := by
  rw [List.dropWhile_append_of_pos hBlanks]
  cases text with
  | nil => rfl
  | cons c text => exact List.dropWhile_cons_of_neg (by simp [hHead c rfl])

theorem head_dropWhile_isBlank (line : List Char) :
    ∀ c ∈ (line.dropWhile isBlank).head?, isBlank c = false := by
  intro c hc
  have hHead := List.head?_dropWhile_not isBlank line
  rwa [hc] at hHead

theorem trimmed_trim (line : List Char) : Trimmed line (trim line) := by
  have hLeft : line = line.takeWhile isBlank ++ line.dropWhile isBlank :=
    List.takeWhile_append_dropWhile.symm
  have hHead := head_dropWhile_isBlank line
  rw [trim]
  generalize line.dropWhile isBlank = rest at hLeft hHead ⊢
  have hRight : rest = (rest.reverse.dropWhile isBlank).reverse ++
      (rest.reverse.takeWhile isBlank).reverse := by
    rw [← List.reverse_append, List.takeWhile_append_dropWhile, List.reverse_reverse]
  refine ⟨⟨line.takeWhile isBlank, (rest.reverse.takeWhile isBlank).reverse, ?_, ?_, ?_⟩, ?_, ?_⟩
  · rw [← hRight]
    exact hLeft
  · exact fun _ => List.mem_takeWhile_imp
  · exact fun c hc => List.mem_takeWhile_imp (List.mem_reverse.mp hc)
  · intro c hc
    apply hHead
    rw [hRight, List.head?_append, hc]
    rfl
  · rw [List.getLast?_reverse]
    exact head_dropWhile_isBlank rest.reverse

/-- **Trimming** takes the blanks at both ends away, and nothing else. -/
theorem trim_eq_iff {line text : List Char} : trim line = text ↔ Trimmed line text := by
  constructor
  · rintro rfl
    exact trimmed_trim line
  · rintro ⟨⟨left, right, rfl, hLeft, hRight⟩, hHead, hLast⟩
    rw [trim]
    by_cases hText : text = []
    · have hBlank : ∀ c ∈ left ++ ([] ++ right), isBlank c = true := by
        simpa [or_imp, forall_and] using ⟨hLeft, hRight⟩
      rw [hText, List.dropWhile_eq_nil_iff.mpr hBlank]
      rfl
    · have hFront : ∀ c ∈ (text ++ right).head?, isBlank c = false := by
        rwa [List.head?_append, List.head?_eq_some_head hText, Option.some_or,
          ← List.head?_eq_some_head hText]
      rw [dropWhile_isBlank_append hLeft hFront, List.reverse_append,
        dropWhile_isBlank_append (fun c hc => hRight c (List.mem_reverse.mp hc))
          (by rwa [List.head?_reverse]), List.reverse_reverse]

theorem trim_blanks_append {blanks : List Char} (h : ∀ c ∈ blanks, isBlank c = true)
    (line : List Char) : trim (blanks ++ line) = trim line := by
  obtain ⟨⟨left, right, hLine, hLeft, hRight⟩, hHead, hLast⟩ := trimmed_trim line
  refine trim_eq_iff.mpr ⟨⟨blanks ++ left, right, ?_, ?_, hRight⟩, hHead, hLast⟩
  · rw [List.append_assoc, ← hLine]
  · exact List.forall_mem_append.mpr ⟨h, hLeft⟩

theorem trim_append_blanks {blanks : List Char} (h : ∀ c ∈ blanks, isBlank c = true)
    (line : List Char) : trim (line ++ blanks) = trim line := by
  obtain ⟨⟨left, right, hLine, hLeft, hRight⟩, hHead, hLast⟩ := trimmed_trim line
  refine trim_eq_iff.mpr ⟨⟨left, right ++ blanks, ?_, hLeft, ?_⟩, hHead, hLast⟩
  · rw [← List.append_assoc (trim line), ← List.append_assoc left, ← hLine]
  · exact List.forall_mem_append.mpr ⟨hRight, h⟩

/-! ### Comments -/

/-- What a comment starts with. -/
def slashes : List Char :=
  ['/', '/']

/-- What stands before the comment of a line: all of it if there is no `//`, otherwise what is in
front of the first one. -/
inductive Uncommented : List Char → List Char → Prop
  | plain {line : List Char} : ¬ slashes <:+: line → Uncommented line line
  | comment {front rest : List Char} :
      (∀ before after, front ++ (slashes ++ rest) = before ++ (slashes ++ after) →
        front.length ≤ before.length) → Uncommented (front ++ (slashes ++ rest)) front

/-- A character in front does not matter, unless a comment starts with it. -/
theorem Uncommented.cons {c : Char} {line front : List Char} (h : Uncommented line front)
    (hc : ¬ slashes <+: c :: line) : Uncommented (c :: line) (c :: front) := by
  cases h with
  | plain hNone =>
    refine .plain fun hInfix => ?_
    rcases List.infix_cons_iff.mp hInfix with hHere | hLater
    · exact hc hHere
    · exact hNone hLater
  | @comment front rest hFirst =>
    refine @Uncommented.comment (c :: front) rest fun before after hSplit => ?_
    cases before with
    | nil => exact absurd ⟨after, hSplit.symm⟩ hc
    | cons d before =>
      obtain ⟨-, hRest⟩ := List.cons.inj hSplit
      exact Nat.succ_le_succ (hFirst before after hRest)

theorem beforeComment_of_slashes {line : List Char} (h : slashes <+: line) :
    beforeComment line = [] := by
  obtain ⟨rest, rfl⟩ := h
  rfl

theorem beforeComment_cons {c : Char} {line : List Char} (h : ¬ slashes <+: c :: line) :
    beforeComment (c :: line) = c :: beforeComment line := by
  rw [beforeComment.eq_3]
  rintro rest rfl rfl
  exact h ⟨rest, rfl⟩

theorem uncommented_beforeComment (line : List Char) : Uncommented line (beforeComment line) := by
  induction line with
  | nil => exact .plain (by simp [slashes])
  | cons c line ih =>
    by_cases hc : slashes <+: c :: line
    · rw [beforeComment_of_slashes hc]
      obtain ⟨rest, hRest⟩ := hc
      rw [← hRest]
      exact @Uncommented.comment [] rest fun _ _ _ => Nat.zero_le _
    · rw [beforeComment_cons hc]
      exact ih.cons hc

theorem Uncommented.unique {line front other : List Char} (h : Uncommented line front)
    (hOther : Uncommented line other) : front = other := by
  cases h with
  | plain hNone =>
    cases hOther with
    | plain _ => rfl
    | comment _ => exact absurd (List.infix_append' _ _ _) hNone
  | @comment front rest hFirst =>
    generalize hLine : front ++ (slashes ++ rest) = line at hOther
    cases hOther with
    | plain hNone =>
      rw [← hLine] at hNone
      exact absurd (List.infix_append' _ _ _) hNone
    | @comment other tail hOtherFirst =>
      -- each of the two is as short as the other
      have hLe := hFirst _ _ hLine
      have hGe := hOtherFirst _ _ hLine.symm
      exact (List.append_inj hLine (Nat.le_antisymm hLe hGe)).1

/-- A text without a slash in it stands before a comment. -/
theorem beforeComment_append_of_not_mem {front : List Char} (h : '/' ∉ front) (line : List Char) :
    beforeComment (front ++ line) = front ++ beforeComment line := by
  induction front with
  | nil => rfl
  | cons c front ih =>
    obtain ⟨hc, hFront⟩ := not_or.mp fun hMem => h (List.mem_cons.mpr hMem)
    have hNone : ¬ slashes <+: c :: (front ++ line) := by
      rintro ⟨rest, hRest⟩
      exact hc (List.cons.inj hRest).1
    rw [List.cons_append, beforeComment_cons hNone, ih hFront, List.cons_append]

theorem beforeComment_of_not_mem {line : List Char} (h : '/' ∉ line) : beforeComment line = line := by
  have hFront := beforeComment_append_of_not_mem h []
  rwa [beforeComment, List.append_nil] at hFront

/-- What is added to a line stands in its comment, or else it is cut at its own comment.  No comment
may start where the two meet. -/
theorem beforeComment_append (front tail : List Char)
    (h : '/' ∉ front.getLast? ∨ '/' ∉ tail.head?) :
    beforeComment (front ++ tail) = beforeComment front ∨
      beforeComment (front ++ tail) = beforeComment front ++ beforeComment tail := by
  induction front with
  | nil => exact Or.inr rfl
  | cons c front ih =>
    by_cases hc : slashes <+: c :: front
    · have hLonger : slashes <+: c :: front ++ tail := hc.trans (List.prefix_append _ _)
      rw [beforeComment_of_slashes hc, beforeComment_of_slashes hLonger]
      exact Or.inl rfl
    · have hLonger : ¬ slashes <+: c :: (front ++ tail) := by
        rintro ⟨rest, hSlashes⟩
        obtain ⟨rfl, hSecond⟩ := List.cons.inj hSlashes
        cases front with
        | nil =>
          -- the second slash would be the first of the tail
          rcases h with hLast | hHead
          · exact hLast rfl
          · rw [List.nil_append] at hSecond
            rw [← hSecond] at hHead
            exact hHead rfl
        | cons d front =>
          obtain ⟨rfl, -⟩ := List.cons.inj hSecond
          exact hc ⟨front, rfl⟩
      have hRest : '/' ∉ front.getLast? ∨ '/' ∉ tail.head? := by
        cases front with
        | nil => exact Or.inl nofun
        | cons d front => rwa [List.getLast?_cons_cons] at h
      rw [List.cons_append, beforeComment_cons hLonger, beforeComment_cons hc, List.cons_append,
        List.cons.injEq, List.cons.injEq]
      exact (ih hRest).imp (⟨rfl, ·⟩) (⟨rfl, ·⟩)

end Text

open Text

/-- What a line says: its text up to the comment, without the blanks around it. -/
def Says (line text : List Char) : Prop :=
  ∃ front, Uncommented line front ∧ Trimmed front text

/-- **A line says its content.** -/
theorem says_iff {line text : List Char} : Says line text ↔ content line = text := by
  rw [content, trim_eq_iff]
  constructor
  · rintro ⟨front, hFront, hText⟩
    rwa [(uncommented_beforeComment line).unique hFront]
  · exact fun h => ⟨_, uncommented_beforeComment line, h⟩

section Content

variable {blanks : List Char} (hBlanks : ∀ c ∈ blanks, isBlank c = true)

include hBlanks

theorem slash_not_mem_blanks : '/' ∉ blanks := by
  intro h
  exact absurd (hBlanks _ h) (by decide)

theorem content_blanks_append (line : List Char) : content (blanks ++ line) = content line := by
  rw [content, beforeComment_append_of_not_mem (slash_not_mem_blanks hBlanks),
    trim_blanks_append hBlanks]
  rfl

theorem content_append_blanks (line : List Char) : content (line ++ blanks) = content line := by
  have hSlash := slash_not_mem_blanks hBlanks
  have hHead : '/' ∉ blanks.head? := fun h => hSlash (List.mem_of_mem_head? h)
  rw [content]
  rcases beforeComment_append line blanks (Or.inr hHead) with h | h
  · rw [h]
    rfl
  · rw [h, beforeComment_of_not_mem hSlash, trim_append_blanks hBlanks]
    rfl

end Content

/-- A comment is no content. -/
theorem content_append_comment {line : List Char} (h : '/' ∉ line.getLast?) (text : List Char) :
    content (line ++ (slashes ++ text)) = content line := by
  have hComment : beforeComment (slashes ++ text) = [] :=
    beforeComment_of_slashes (List.prefix_append _ _)
  rw [content]
  rcases beforeComment_append line (slashes ++ text) (Or.inl h) with h | h
  · rw [h]
    rfl
  · rw [h, hComment, List.append_nil]
    rfl

/-! ### What a text says -/

/-- The line of this number says something. -/
def LineSays (text : List Char) (number : Nat) (said : List Char) : Prop :=
  ∃ line, LineAt text number line ∧ Says line said ∧ said ≠ []

theorem contents_of_line {line : List Char} (hLine : '\n' ∉ line) (hSaid : content line ≠ []) :
    contents line = [(content line, 1)] := by
  rw [contents, split_of_not_mem hLine]
  simp [hSaid]

/-- **A text cut at a line feed**: the lines of the lower part count on from those of the upper. -/
theorem contents_append (a b : List Char) :
    contents (a ++ '\n' :: b) =
      contents a ++ (contents b).map (Prod.map id (· + (a.count '\n' + 1))) := by
  have hBelow : (split '\n' b).zipIdx (1 + (split '\n' a).length) =
      ((split '\n' b).zipIdx 1).map (Prod.map id (· + (a.count '\n' + 1))) := by
    rw [List.map_snd_add_zipIdx_eq_zipIdx, length_split, Nat.add_comm 1]
  rw [contents, split_append, List.zipIdx_append, List.filterMap_append, hBelow, contents, contents,
    List.filterMap_map, List.map_filterMap]
  congr 2
  funext ⟨line, number⟩
  by_cases hSaid : content line = []
  · simp [hSaid]
  · simp [hSaid]

end HackVm
