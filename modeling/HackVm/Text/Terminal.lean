/-!
# Terminal controls

A terminal does not print every character of a text.  Control characters are obeyed, and an escape
starts a command, which hides what stands behind it up to the end of the command.  `printed` is what
is left to be read.  A text of printable characters and line breaks is left as it is
(`printed_eq_self`), and such a text is all that is ever left (`isPlain_of_mem_printed`).

The character behind the escape says which kind of command it is:

* `[` starts a control sequence, which ends at a character from `@` to `~`;
* `]` starts an operating system command, which ends at the control character 7;
* `P` starts a device control string, a head of numbers and then a body;
* `X`, `^` and `_` start other strings, which are a body only;
* any other character belongs to an escape sequence, in which characters from the space to `/`
  come before the one that ends it.

A body ends at the byte `9C` of its encoding.  The control characters 24 and 26 end any command, and
an escape starts the next one wherever it stands.

A line break or another layout character interrupts an escape sequence or a control sequence: it is
printed, and so is what stands behind it.  The sequence goes on at the next character that is not
printed, unless one outside ASCII was printed before.
-/

namespace HackVm.Text

/-- Where a terminal is in a command, or that it is in none. -/
inductive TerminalMode
  /-- Characters are printed. -/
  | text
  /-- Behind an escape. -/
  | escape
  /-- In an escape sequence, behind a character that does not end it. -/
  | escapeSequence
  /-- In a control sequence. -/
  | controlSequence
  /-- In an operating system command. -/
  | systemCommand
  /-- At the start of the head of a device control string. -/
  | deviceStart
  /-- Among the numbers in the head of a device control string. -/
  | deviceNumbers
  /-- Behind the numbers in the head of a device control string. -/
  | deviceMiddle
  /-- In the body of a string. -/
  | body
  deriving DecidableEq, Repr

/-- Whether a control character moves the place where the terminal prints: the tab, the line feed,
the form feed and the carriage return. -/
def isLayout (c : Char) : Bool :=
  c == '\t' || c == '\n' || c == '\x0c' || c == '\r'

/-- Whether a character is left where no command hides it. -/
def isPlain (c : Char) : Bool :=
  isLayout c || (' ' ≤ c && c != '\x7f')

namespace TerminalMode

/-- Whether control characters are obeyed; a string takes them as its own. -/
def obeysControls : TerminalMode → Bool
  | text | escape | escapeSequence | controlSequence => true
  | systemCommand | deviceStart | deviceNumbers | deviceMiddle | body => false

/-- Whether a character is printed; behind another that is printed any plain one is. -/
def shows (mode : TerminalMode) (printing : Bool) (c : Char) : Bool :=
  isPlain c && (printing || mode == text || isLayout c && mode.obeysControls)

/-- The mode behind a character that is printed. -/
def afterShown (mode : TerminalMode) (c : Char) : TerminalMode :=
  if c.toNat < 0x80 then mode else text

/-- The mode behind a printable character of ASCII that a command hides. -/
def afterHidden (mode : TerminalMode) (c : Char) : TerminalMode :=
  match mode with
  | text => text
  | escape =>
    if c ≤ '/' then escapeSequence
    else match c with
      | '[' => controlSequence
      | ']' => systemCommand
      | 'P' => deviceStart
      | 'X' | '^' | '_' => body
      | _ => text
  | escapeSequence => if c ≤ '/' then escapeSequence else text
  | controlSequence => if c ≤ '?' then controlSequence else text
  | systemCommand => systemCommand
  | deviceStart => if c ≤ '/' then deviceMiddle else if c ≤ '?' then deviceNumbers else body
  | deviceNumbers => if c ≤ '/' then deviceMiddle else if c ≤ ';' then deviceNumbers else body
  | deviceMiddle => if c ≤ '/' then deviceMiddle else body
  | body => body

/-- The mode behind a character that is not printed. -/
def next (mode : TerminalMode) (c : Char) : TerminalMode :=
  if c = '\x18' ∨ c = '\x1a' then text
  else if c = '\x1b' then escape
  else if c < ' ' then if mode = systemCommand ∧ c = '\x07' then text else mode
  else if c < '\x7f' then mode.afterHidden c
  else if mode = body ∧ 0x9C ∈ String.utf8EncodeChar c then text
  else mode

/-- What is left to be read of the rest of a text, behind a character that is printed or is not. -/
def printed (mode : TerminalMode) (printing : Bool) : List Char → List Char
  | [] => []
  | c :: rest =>
    if mode.shows printing c then c :: (mode.afterShown c).printed true rest
    else (mode.next c).printed false rest

theorem isPlain_of_shows {mode : TerminalMode} {printing : Bool} {c : Char}
    (h : mode.shows printing c = true) : isPlain c = true := by
  simp only [shows, Bool.and_eq_true] at h
  exact h.1

theorem shows_text (printing : Bool) (c : Char) : text.shows printing c = isPlain c := by
  simp [shows]

theorem afterShown_text (c : Char) : text.afterShown c = text := by
  simp [afterShown]

theorem printed_text {rest : List Char} {printing : Bool} (h : ∀ c ∈ rest, isPlain c = true) :
    text.printed printing rest = rest := by
  induction rest generalizing printing with
  | nil => rfl
  | cons c rest ih =>
    have hc : isPlain c = true := h c (by simp)
    simp [printed, shows_text, afterShown_text, hc, ih fun d hd => h d (by simp [hd])]

theorem isPlain_of_mem_printed {mode : TerminalMode} {printing : Bool} {rest : List Char} {c : Char}
    (h : c ∈ mode.printed printing rest) : isPlain c = true := by
  induction rest generalizing mode printing with
  | nil => simp [printed] at h
  | cons d rest ih =>
    simp only [printed] at h
    split at h
    case isTrue hd =>
      rcases List.mem_cons.mp h with rfl | h
      · exact isPlain_of_shows hd
      · exact ih h
    case isFalse => exact ih h

end TerminalMode

/-- What is left to be read of a text that a terminal prints. -/
def printed (text : List Char) : List Char :=
  TerminalMode.text.printed false text

theorem printed_eq_self {text : List Char} (h : ∀ c ∈ text, isPlain c = true) :
    printed text = text :=
  TerminalMode.printed_text h

theorem isPlain_of_mem_printed {text : List Char} {c : Char} (h : c ∈ printed text) :
    isPlain c = true :=
  TerminalMode.isPlain_of_mem_printed h

end HackVm.Text
