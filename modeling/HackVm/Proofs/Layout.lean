import HackVm.Proofs.Lines
import HackVm.Proofs.Reading

/-!
# Layout

A text is read line by line.  So a text that is cut at a line feed is read as its upper part and then
its lower part, with greater line numbers (`readText_append`), and what is on a line beside its
command, or between the lines, changes line numbers at most.

* `Position.renumber`, `Statement.renumber`, `Error.renumber`: other line numbers.
* `said`: what the lines of a text say, without their numbers.  It determines all that is read but the
  line numbers (`renumbered_eq_of_said`).
* `Relaid`: texts that differ in their layout, by indentation, blanks and carriage returns at the end
  of lines, comments and blank lines.
* `read_line_by_line`: all of this in one statement.
-/

namespace HackVm

open Text

/-! ### Line numbers -/

/-- The position with another line number. -/
def Position.renumber (f : Nat → Nat) (position : Position) : Position :=
  { position with line := f position.line }

/-- The statement with another line number. -/
def Statement.renumber (f : Nat → Nat) (statement : Statement) : Statement :=
  { statement with position := statement.position.renumber f }

/-- The error with another line number, if it tells one. -/
def Error.renumber (f : Nat → Nat) : Error → Error
  | line position text fault => line (position.renumber f) text fault
  | access position fault => access (position.renumber f) fault
  | labelTaken position label => labelTaken (position.renumber f) label
  | unreadable path fault => unreadable path fault
  | noSources path => noSources path
  | notSource path => notSource path

/-- What was read, or the error, with other line numbers. -/
def renumbered (f : Nat → Nat) :
    Except Error (List Statement) → Except Error (List Statement)
  | .ok statements => .ok (statements.map (·.renumber f))
  | .error error => .error (error.renumber f)

/-- Reads what the lines of a file say. -/
def readContents (file : String) (lines : List (List Char × Nat)) :
    Except Error (List Statement) :=
  lines.mapM fun (line, number) => readLine ⟨file, number⟩ line

theorem readText_eq (file text : String) :
    readText file text = readContents file (contents text.toList) := rfl

theorem readContents_cons (file : String) (line : List Char) (number : Nat)
    (lines : List (List Char × Nat)) :
    readContents file ((line, number) :: lines) = (do
      let first ← readLine ⟨file, number⟩ line
      let rest ← readContents file lines
      return first :: rest) :=
  List.mapM_cons

theorem readContents_renumber (file : String) (f : Nat → Nat) (lines : List (List Char × Nat)) :
    readContents file (lines.map (Prod.map id f)) = renumbered f (readContents file lines) := by
  induction lines with
  | nil => rfl
  | cons first lines ih =>
    obtain ⟨line, number⟩ := first
    rw [List.map_cons, Prod.map_apply, id, readContents_cons, readContents_cons, ih, readLine,
      readLine]
    cases Command.read line with
    | error fault => rfl
    | ok command => cases readContents file lines <;> rfl

/-- **A text cut at a line feed** is read from above.  The first error of the upper part is the
result, then that of the lower part, and without an error the statements follow each other. -/
theorem readText_append (file a b : String) :
    readText file (a ++ "\n" ++ b) = (do
      let upper ← readText file a
      let lower ← renumbered (· + (a.toList.count '\n' + 1)) (readText file b)
      return upper ++ lower) := by
  have hText : (a ++ "\n" ++ b).toList = a.toList ++ '\n' :: b.toList := by simp
  rw [readText_eq, hText, contents_append, readContents, List.mapM_append, ← readContents,
    ← readContents, readContents_renumber]
  rfl

/-! ### What determines the result -/

/-- What the lines of a text say, without their numbers. -/
def said (text : List Char) : List (List Char) :=
  (contents text).map Prod.fst

/-- The result is determined by what the lines say, but for their numbers. -/
theorem renumbered_eq_of_said (file : String) {text other : String}
    (h : said text.toList = said other.toList) :
    renumbered (fun _ => 0) (readText file text) = renumbered (fun _ => 0) (readText file other) := by
  have hSaid : ∀ text : String, renumbered (fun _ => 0) (readText file text) =
      readContents file ((said text.toList).map (·, 0)) := by
    intro text
    rw [readText_eq, ← readContents_renumber, said, List.map_map]
    rfl
  rw [hSaid, hSaid, h]

theorem said_append (a b : List Char) : said (a ++ '\n' :: b) = said a ++ said b := by
  rw [said, contents_append, List.map_append, List.map_map]
  rfl

theorem said_nil : said [] = [] := rfl

theorem said_of_line {line : List Char} (h : '\n' ∉ line) :
    said line = if content line = [] then [] else [content line] := by
  rw [said, contents, split_of_not_mem h]
  by_cases hContent : content line = [] <;> simp [hContent]

theorem said_congr {before after line other : List Char} (hStart : LineStart before)
    (hEnd : LineEnd after) (h : said line = said other) :
    said (before ++ (line ++ after)) = said (before ++ (other ++ after)) := by
  have hAfter : said (line ++ after) = said (other ++ after) := by
    rcases hEnd with rfl | ⟨below, rfl⟩
    · rwa [List.append_nil, List.append_nil]
    · rw [said_append, said_append, h]
  rcases hStart with rfl | ⟨above, rfl⟩
  · exact hAfter
  · rw [List.append_assoc, List.append_assoc, List.singleton_append, List.singleton_append,
      said_append, said_append, hAfter]

/-! ### Layout -/

/-- Blanks on a line. -/
structure LineBlanks (blanks : List Char) : Prop where
  isBlank : ∀ c ∈ blanks, isBlank c = true
  one_line : '\n' ∉ blanks

/-- Two texts that differ in their layout. -/
inductive Relaid : List Char → List Char → Prop
  /-- Blanks at the start of a line. -/
  | indentation {before blanks after : List Char} : LineStart before → LineBlanks blanks →
      Relaid (before ++ after) (before ++ (blanks ++ after))
  /-- Blanks at the end of a line, such as a carriage return. -/
  | trailing {before blanks after : List Char} : LineBlanks blanks → LineEnd after →
      Relaid (before ++ after) (before ++ (blanks ++ after))
  /-- A comment at the end of a line, which does not end in a slash. -/
  | comment {before text after : List Char} : '/' ∉ before.getLast? → '\n' ∉ text → LineEnd after →
      Relaid (before ++ after) (before ++ (slashes ++ text ++ after))
  /-- A blank line above another line. -/
  | blankAbove {before after : List Char} : LineStart before →
      Relaid (before ++ after) (before ++ '\n' :: after)
  /-- A blank line below another line. -/
  | blankBelow {before after : List Char} : LineEnd after →
      Relaid (before ++ after) (before ++ '\n' :: after)
  | refl (text : List Char) : Relaid text text
  | symm {text other : List Char} : Relaid text other → Relaid other text
  | trans {text other last : List Char} : Relaid text other → Relaid other last → Relaid text last

theorem exists_lineStart (before : List Char) : ∃ above front, before = above ++ front ∧
    LineStart above ∧ '\n' ∉ front := by
  rcases split_cases '\n' before.reverse with hNone | ⟨front, above, hSplit, hFront⟩
  · exact ⟨[], before, rfl, Or.inl rfl, fun h => hNone (List.mem_reverse.mpr h)⟩
  · refine ⟨above.reverse ++ ['\n'], front.reverse, ?_, Or.inr ⟨_, rfl⟩,
      fun h => hFront (List.mem_reverse.mp h)⟩
    rw [← List.reverse_inj, hSplit]
    simp

theorem exists_lineEnd (after : List Char) : ∃ rest below, after = rest ++ below ∧
    '\n' ∉ rest ∧ LineEnd below := by
  rcases split_cases '\n' after with hNone | ⟨rest, below, rfl, hRest⟩
  · exact ⟨after, [], (List.append_nil _).symm, hNone, Or.inl rfl⟩
  · exact ⟨rest, '\n' :: below, rfl, hRest, Or.inr ⟨below, rfl⟩⟩

theorem said_line_congr {line other : List Char} (hLine : '\n' ∉ line) (hOther : '\n' ∉ other)
    (h : content other = content line) : said line = said other := by
  rw [said_of_line hLine, said_of_line hOther, h]

/-- **The layout of a text** is nothing that its lines say. -/
theorem Relaid.said_eq {text other : List Char} (h : Relaid text other) :
    said text = said other := by
  induction h with
  | @indentation before blanks after hStart hBlanks =>
    obtain ⟨rest, below, rfl, hRest, hEnd⟩ := exists_lineEnd after
    rw [← List.append_assoc blanks]
    exact said_congr hStart hEnd (said_line_congr hRest (List.not_mem_append hBlanks.one_line hRest)
      (content_blanks_append hBlanks.isBlank rest))
  | @trailing before blanks after hBlanks hEnd =>
    obtain ⟨above, front, rfl, hStart, hFront⟩ := exists_lineStart before
    rw [List.append_assoc, List.append_assoc, ← List.append_assoc front]
    exact said_congr hStart hEnd (said_line_congr hFront (List.not_mem_append hFront hBlanks.one_line)
      (content_append_blanks hBlanks.isBlank front))
  | @comment before text after hLast hText hEnd =>
    obtain ⟨above, front, rfl, hStart, hFront⟩ := exists_lineStart before
    have hComment : '\n' ∉ slashes ++ text := List.not_mem_append (by decide) hText
    have hFrontLast : '/' ∉ front.getLast? := fun h => hLast (by
      rw [List.getLast?_append, h]
      rfl)
    rw [List.append_assoc, List.append_assoc, ← List.append_assoc front]
    exact said_congr hStart hEnd (said_line_congr hFront (List.not_mem_append hFront hComment)
      (content_append_comment hFrontLast text))
  | @blankAbove before after hStart =>
    rw [said_append]
    rcases hStart with rfl | ⟨above, rfl⟩
    · rfl
    · rw [List.append_assoc, List.singleton_append, said_append, said_append, said_nil,
        List.append_nil]
  | @blankBelow before after hEnd =>
    rw [said_append]
    rcases hEnd with rfl | ⟨below, rfl⟩
    · rw [List.append_nil, said_nil, List.append_nil]
    · rw [said_append, ← List.nil_append ('\n' :: below), said_append, said_nil, List.nil_append]
  | refl => rfl
  | symm _ ih => exact ih.symm
  | trans _ _ ih ihOther => exact ih.trans ihOther

/-! ### The lines that are read -/

section Lines

variable {file text : String}

theorem hasLine_iff {number : Nat} {said : List Char} :
    (Source.mk "" file text).HasLine number said ↔ LineSays text.toList number said := by
  constructor
  · rintro ⟨line, hPos, hPiece, rfl, hSaid⟩
    exact ⟨line, lineAt_iff.mpr ⟨hPos, hPiece⟩, says_iff.mpr rfl, hSaid⟩
  · rintro ⟨line, hLine, hSays, hSaid⟩
    obtain ⟨hPos, hPiece⟩ := lineAt_iff.mp hLine
    exact ⟨line, hPos, hPiece, says_iff.mp hSays, hSaid⟩

theorem exists_readLine_iff {position : Position} {line : List Char} :
    (∃ s, readLine position line = .ok s) ↔ ∃ command, Command.read line = .ok command := by
  constructor
  · rintro ⟨s, hs⟩
    exact ⟨s.command, (Source.readLine_eq_ok_iff.mp hs).1⟩
  · rintro ⟨command, hCommand⟩
    exact ⟨⟨position, command⟩, Source.readLine_eq_ok_iff.mpr ⟨hCommand, rfl⟩⟩

/-- **What is read of a text**: the commands on the lines that say something, from above, if all of
these lines are commands. -/
theorem readText_eq_ok_iff {statements : List Statement} :
    readText file text = .ok statements ↔
      (∀ number said, LineSays text.toList number said →
        ∃ s, readLine ⟨file, number⟩ said = .ok s) ∧
      (∀ s, s ∈ statements ↔ ∃ number said, LineSays text.toList number said ∧
        readLine ⟨file, number⟩ said = .ok s) ∧
      statements.Pairwise fun s t => s.position.line < t.position.line := by
  have hRead : (Source.mk "" file text).read = .ok ⟨"", statements⟩ ↔
      _ ∧ readText file text = .ok statements := Source.read_eq_ok
  rw [Source.read_eq_ok_iff] at hRead
  refine Iff.trans ⟨fun h => hRead.mpr ⟨rfl, h⟩, fun h => (hRead.mp h).2⟩ ?_
  simp only [Source.Parses, hasLine_iff, exists_readLine_iff]
  constructor
  · rintro ⟨hParses, -, hMem, hOrdered⟩
    simp only [hasLine_iff, ← Source.readLine_eq_ok_iff] at hMem
    exact ⟨hParses, hMem, hOrdered⟩
  · rintro ⟨hParses, hMem, hOrdered⟩
    refine ⟨hParses, rfl, ?_, hOrdered⟩
    simpa only [hasLine_iff, ← Source.readLine_eq_ok_iff] using hMem

/-- **The error of a text** is that of its first line that is no command. -/
theorem readText_eq_error_iff {error : Error} :
    readText file text = .error error ↔
      ∃ number said, LineSays text.toList number said ∧
        readLine ⟨file, number⟩ said = .error error ∧
        ∀ earlier other, earlier < number → LineSays text.toList earlier other →
          ∃ s, readLine ⟨file, earlier⟩ other = .ok s := by
  have hRead : (Source.mk "" file text).read = .error error ↔ readText file text = .error error :=
    Source.read_eq_error
  rw [Source.read_eq_error_iff] at hRead
  refine hRead.symm.trans ?_
  simp only [exists_readLine_iff, Source.readLine_eq_error_iff]
  constructor
  · rintro ⟨number, said, fault, ⟨hLine, hFault, hFirst⟩, rfl⟩
    simp only [hasLine_iff] at hLine hFirst
    exact ⟨number, said, hLine, ⟨fault, hFault, rfl⟩, hFirst⟩
  · rintro ⟨number, said, hLine, ⟨fault, hFault, rfl⟩, hFirst⟩
    simp only [← @hasLine_iff file] at hLine hFirst
    exact ⟨number, said, fault, ⟨hLine, hFault, hFirst⟩, rfl⟩

end Lines

/-- **A text is read line by line.**

* Cut at a line feed, a text is read as its upper part and then its lower part, the lines of which
  count on from those of the upper part: an error of the upper part is the result, then an error of
  the lower part, and otherwise the statements of both.
* What is read are the lines that say something, in their order and each as it is read alone, or the
  error of the first of them that is no command.
* Layout changes nothing but line numbers. -/
theorem read_line_by_line (file : String) :
    (∀ a b : String, readText file (a ++ "\n" ++ b) = (do
      let upper ← readText file a
      let lower ← renumbered (· + (a.toList.count '\n' + 1)) (readText file b)
      return upper ++ lower)) ∧
    (∀ text statements, readText file text = .ok statements ↔
      (∀ number said, LineSays text.toList number said →
        ∃ s, readLine ⟨file, number⟩ said = .ok s) ∧
      (∀ s, s ∈ statements ↔ ∃ number said, LineSays text.toList number said ∧
        readLine ⟨file, number⟩ said = .ok s) ∧
      statements.Pairwise fun s t => s.position.line < t.position.line) ∧
    (∀ text error, readText file text = .error error ↔
      ∃ number said, LineSays text.toList number said ∧
        readLine ⟨file, number⟩ said = .error error ∧
        ∀ earlier other, earlier < number → LineSays text.toList earlier other →
          ∃ s, readLine ⟨file, earlier⟩ other = .ok s) ∧
    ∀ text other : String, Relaid text.toList other.toList →
      renumbered (fun _ => 0) (readText file text) =
        renumbered (fun _ => 0) (readText file other) :=
  ⟨readText_append file, fun _ _ => readText_eq_ok_iff, fun _ _ => readText_eq_error_iff,
    fun _ _ h => renumbered_eq_of_said file h.said_eq⟩

/-- A faulty line moves down when a comment is put above it, and its indentation and the carriage
return behind it are no part of the fault. -/
theorem fault_moved_down :
    Relaid "add\npop\n".toList "// first\nadd\n\tpop\r\n".toList ∧
      readText "Main.vm" "add\npop\n" =
        .error (.line ⟨"Main.vm", 2⟩ "pop" (.malformed .pop)) ∧
      readText "Main.vm" "// first\nadd\n\tpop\r\n" =
        .error (.line ⟨"Main.vm", 3⟩ "pop" (.malformed .pop)) ∧
      renumbered (fun _ => 0) (readText "Main.vm" "add\npop\n") =
        renumbered (fun _ => 0) (readText "Main.vm" "// first\nadd\n\tpop\r\n") := by
  have hRelaid : Relaid "add\npop\n".toList "// first\nadd\n\tpop\r\n".toList := by
    have hTab : LineBlanks ['\t'] := ⟨List.forall_mem_singleton.mpr (by decide), by decide⟩
    have hReturn : LineBlanks ['\r'] := ⟨List.forall_mem_singleton.mpr (by decide), by decide⟩
    have hBlank : Relaid "add\npop\n".toList "\nadd\npop\n".toList :=
      @Relaid.blankAbove [] "add\npop\n".toList (Or.inl rfl)
    have hComment : Relaid "\nadd\npop\n".toList "// first\nadd\npop\n".toList :=
      @Relaid.comment [] " first".toList "\nadd\npop\n".toList (by decide) (by decide)
        (Or.inr ⟨_, rfl⟩)
    have hIndent : Relaid "// first\nadd\npop\n".toList "// first\nadd\n\tpop\n".toList :=
      @Relaid.indentation "// first\nadd\n".toList _ "pop\n".toList
        (Or.inr ⟨"// first\nadd".toList, by decide⟩) hTab
    have hTrail : Relaid "// first\nadd\n\tpop\n".toList "// first\nadd\n\tpop\r\n".toList :=
      @Relaid.trailing "// first\nadd\n\tpop".toList _ "\n".toList hReturn (Or.inr ⟨[], rfl⟩)
    exact ((hBlank.trans hComment).trans hIndent).trans hTrail
  exact ⟨hRelaid, by decide, by decide, (read_line_by_line "Main.vm").2.2.2 _ _ hRelaid⟩

end HackVm
