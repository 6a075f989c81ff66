import HackVm.Proofs.Spacing

/-!
# Commands as text

A command is written as one line, its keyword and its operands with single spaces between them.  What
is written is read back, from one line and from a text of several, as long as the names are names and
the numbers are not too large (`Command.IsSpellable`).  No other command is ever read, so whatever a
line spells, the command that is read from it may be written in its place.

* `Command.isSpellable_iff`: the commands that some words spell.
* `Command.spells_text`: the text of such a command spells it.
* `readText_join`: the texts of commands, one on each line, are read as these commands.
* `command_text_read_back`: all of this in one statement.
-/

namespace HackVm

open Text

/-! ### The commands that can be spelled -/

/-- The names of the command are names, and its numbers are small enough for an instruction. -/
def Command.IsSpellable : Command → Prop
  | push _ index | pop _ index => index.toNat ≤ 32767
  | label name | goto name | ifGoto name => IsName name
  | function name count | call name count => IsName name ∧ count.toNat ≤ 32767
  | unary _ | binary _ | compare _ | ret => True

instance (name : String) : Decidable (IsName name) :=
  decidable_of_iff (isName name.toList = true) isName_iff

instance : (command : Command) → Decidable command.IsSpellable
  | .push _ index | .pop _ index => inferInstanceAs (Decidable (index.toNat ≤ 32767))
  | .label name | .goto name | .ifGoto name => inferInstanceAs (Decidable (IsName name))
  | .function name count | .call name count =>
    inferInstanceAs (Decidable (IsName name ∧ count.toNat ≤ 32767))
  | .unary _ | .binary _ | .compare _ | .ret => .isTrue trivial

theorem isNumber_decimal {number : Word} (h : number.toNat ≤ 32767) :
    IsNumber (Word.decimal number).toList number :=
  ⟨decimal?_eq_some.mp (decimal?_repr number.toNat), h⟩

theorem Command.takes_operands {command : Command} (h : command.IsSpellable) :
    command.Takes (command.operands.map String.toList) := by
  cases command with
  | push segment index => exact .push (isNumber_decimal h)
  | pop segment index => exact .pop (isNumber_decimal h)
  | unary op => exact .unary op
  | binary op => exact .binary op
  | compare op => exact .compare op
  | label name => exact .label h
  | goto name => exact .goto h
  | ifGoto name => exact .ifGoto h
  | function name locals => exact .function h.1 (isNumber_decimal h.2)
  | call name arguments => exact .call h.1 (isNumber_decimal h.2)
  | ret => exact .ret

/-- **The commands that some words spell.** -/
theorem Command.isSpellable_iff {command : Command} :
    command.IsSpellable ↔ ∃ operands, command.Takes operands := by
  constructor
  · exact fun h => ⟨_, takes_operands h⟩
  · rintro ⟨operands, h⟩
    cases h with
    | push hIndex | pop hIndex => exact hIndex.le_max
    | unary | binary | compare | ret => trivial
    | label h | goto h | ifGoto h => exact h
    | function h hCount | call h hCount => exact ⟨h, hCount.le_max⟩

/-! ### One line -/

theorem joined_intercalate (words : List String) : ∀ word : String,
    Joined ((word :: words).map String.toList) (" ".intercalate (word :: words)).toList := by
  induction words with
  | nil =>
    intro word
    rw [String.intercalate_singleton]
    exact .one _
  | cons next words ih =>
    intro word
    rw [String.intercalate_cons_cons, String.append_assoc, String.toList_append,
      String.toList_append]
    exact .cons word.toList (.single (by decide)) (ih next)

/-- **The text of a command spells it.** -/
theorem Command.spells_text {command : Command} (h : command.IsSpellable) :
    Spells command.text.toList command :=
  ⟨_, takes_operands h, joined_intercalate command.operands command.keyword.text⟩

namespace Command

variable {command : Command} (h : command.IsSpellable)

include h

theorem exists_tokenLine : ∃ line : TokenLine,
    line.laid = command.text.toList ∧ line.text = command.text.toList := by
  have hNone : LineBlanks [] := by decide
  obtain ⟨line, hLaid, hText⟩ :=
    (spells_text h).exists_tokenLine hNone hNone (Or.inl rfl) List.not_mem_nil
  exact ⟨line, hLaid, by simpa using hText⟩

theorem content_text : content command.text.toList = command.text.toList := by
  obtain ⟨line, hLaid, hText⟩ := exists_tokenLine h
  rw [← hText, TokenLine.content_text, hLaid, hText]

theorem lineFeed_not_mem_text : '\n' ∉ command.text.toList := by
  obtain ⟨line, -, hText⟩ := exists_tokenLine h
  rw [← hText]
  exact TokenLine.lineFeed_not_mem_text

theorem text_ne_nil : command.text.toList ≠ [] := by
  obtain ⟨line, hLaid, -⟩ := exists_tokenLine h
  rw [← hLaid]
  exact TokenLine.laid_ne_nil

end Command

/-- **What is written is read back.**  A command is read from its own text exactly if it can be
spelled. -/
theorem readLine_text {position : Position} {command : Command} :
    readLine position command.text.toList = .ok ⟨position, command⟩ ↔ command.IsSpellable := by
  rw [Source.readLine_eq_ok_iff, Command.read_eq_ok]
  constructor
  · rintro ⟨⟨operands, hTakes, -⟩, -⟩
    exact Command.isSpellable_iff.mpr ⟨operands, hTakes⟩
  · exact fun h => ⟨Command.spells_text h, rfl⟩

/-! ### Several lines -/

theorem readText_text (file : String) {command : Command} (h : command.IsSpellable) :
    readText file command.text = .ok [⟨⟨file, 1⟩, command⟩] := by
  have hSaid := Command.content_text h
  have hFull : content command.text.toList ≠ [] := by
    rw [hSaid]
    exact Command.text_ne_nil h
  rw [readText_eq, contents_of_line (Command.lineFeed_not_mem_text h) hFull, hSaid,
    readContents_cons, readLine_text.mpr h]
  rfl

/-- Commands on lines of their own, from a line on. -/
def onLines (file : String) (number : Nat) (commands : List Command) : List Statement :=
  (commands.zipIdx number).map fun (command, line) => ⟨⟨file, line⟩, command⟩

theorem onLines_renumber (file : String) (number : Nat) (commands : List Command) :
    (onLines file number commands).map (·.renumber (· + 1)) = onLines file (number + 1) commands := by
  rw [onLines, onLines, Nat.add_comm number, ← List.map_snd_add_zipIdx_eq_zipIdx, List.map_map,
    List.map_map]
  rfl

/-- **Commands on lines of their own** are read in order, from the first line on. -/
theorem readText_join (file : String) {commands : List Command}
    (h : ∀ command ∈ commands, command.IsSpellable) :
    readText file ("\n".intercalate (commands.map Command.text)) =
      .ok (onLines file 1 commands) := by
  induction commands with
  | nil => rfl
  | cons first rest ih =>
    obtain ⟨hFirst, hRest⟩ := List.forall_mem_cons.mp h
    cases rest with
    | nil => exact readText_text file hFirst
    | cons next rest =>
      have hCount : first.text.toList.count '\n' = 0 :=
        List.count_eq_zero.mpr (Command.lineFeed_not_mem_text hFirst)
      have hBelow := onLines_renumber file 1 (next :: rest)
      rw [List.map_cons, List.map_cons, String.intercalate_cons_cons, readText_append,
        readText_text file hFirst, ← List.map_cons, ih hRest, hCount]
      exact congrArg (Except.ok <| _ :: ·) hBelow

/-- **Commands read back from their text.**  A command is read from its text exactly if its names are
names and its numbers are not too large.  The texts of such commands, joined by line feeds, are read as
these commands on the lines from one on.  Every command that is read, from any line, is of this kind,
so it is read from its own text as well. -/
theorem command_text_read_back :
    (∀ (position : Position) (command : Command),
      readLine position command.text.toList = .ok ⟨position, command⟩ ↔ command.IsSpellable) ∧
    (∀ (file : String) (commands : List Command), (∀ command ∈ commands, command.IsSpellable) →
      readText file ("\n".intercalate (commands.map Command.text)) =
        .ok (onLines file 1 commands)) ∧
    ∀ (position : Position) (line : List Char) (s : Statement), readLine position line = .ok s →
      s.command.IsSpellable ∧ readLine position s.command.text.toList = .ok s := by
  refine ⟨fun _ _ => readLine_text, fun file _ => readText_join file, ?_⟩
  rintro position line ⟨place, command⟩ hRead
  obtain ⟨hCommand, rfl⟩ := Source.readLine_eq_ok_iff.mp hRead
  obtain ⟨operands, hTakes, -⟩ := Command.read_eq_ok.mp hCommand
  have hSpellable : command.IsSpellable := Command.isSpellable_iff.mpr ⟨operands, hTakes⟩
  exact ⟨hSpellable, readLine_text.mpr hSpellable⟩

/-- Names that look like keywords and segments, and the largest number. -/
theorem keyword_names_read_back :
    readText "Main.vm" "function push.add:$ 0\nlabel return\npush static 32767\nif-goto return" =
        .ok [⟨⟨"Main.vm", 1⟩, .function "push.add:$" 0⟩, ⟨⟨"Main.vm", 2⟩, .label "return"⟩,
          ⟨⟨"Main.vm", 3⟩, .push .static 32767⟩, ⟨⟨"Main.vm", 4⟩, .ifGoto "return"⟩] ∧
      readLine ⟨"Main.vm", 5⟩ "push\t constant  007".toList =
        .ok ⟨⟨"Main.vm", 5⟩, .push .constant 7⟩ ∧
      readLine ⟨"Main.vm", 5⟩ "push constant 7".toList = .ok ⟨⟨"Main.vm", 5⟩, .push .constant 7⟩ := by
  obtain ⟨-, hJoin, hAgain⟩ := command_text_read_back
  have hRead : readLine ⟨"Main.vm", 5⟩ "push\t constant  007".toList =
      .ok ⟨⟨"Main.vm", 5⟩, .push .constant 7⟩ := by decide
  exact ⟨hJoin "Main.vm" [.function "push.add:$" 0, .label "return", .push .static 32767,
    .ifGoto "return"] (by decide), hRead, (hAgain _ _ _ hRead).2⟩

end HackVm
