import HackVm.Text.Terminal

/-!
# The log

The program says what it does in records of a log.  A record has a level, and is shown if its level
is no finer than the threshold.  A record starts on a line of its own; a line break in its text is
kept, with blanks behind it that set the rest of the text apart from the records (`indented`), and
controls for a terminal are taken out.
-/

namespace HackVm

/-- How much a record of the log matters, the most first. -/
inductive Level
  | error
  | warn
  | info
  | debug
  | trace
  deriving DecidableEq, Repr

namespace Level

/-- Every level, from the most to the least that matters. -/
def all : List Level :=
  [error, warn, info, debug, trace]

/-- The level's name. -/
def text : Level → String
  | error => "ERROR"
  | warn => "WARN"
  | info => "INFO"
  | debug => "DEBUG"
  | trace => "TRACE"

/-- The place of the level among all levels. -/
def rank (level : Level) : Nat :=
  all.idxOf level

end Level

/-- Which levels are shown: those up to a level, or none. -/
abbrev Threshold := Option Level

/-- Whether records of a level are shown. -/
def Threshold.shows (threshold : Threshold) (level : Level) : Bool :=
  threshold.any (level.rank ≤ ·.rank)

/-- The threshold of a run.  A setting gives its level, in letters of either case; an empty one
shows errors only, and any other text nothing.  Without a setting it is for the command line to
say. -/
def Threshold.ofSetting (setting? : Option String) (verbose : Bool) : Threshold :=
  match setting? with
  | none => some (if verbose then .debug else .warn)
  | some "" => some .error
  | some setting => Level.all.find? (·.text == setting.toUpper)

/-- Something that the program says. -/
structure LogRecord where
  level : Level
  /-- The part of the program that speaks. -/
  source : String
  text : String
  deriving DecidableEq, Repr

/-- The level's name, filled up with blanks to the width of the widest. -/
def Level.column (level : Level) : String :=
  level.text.pushn ' ' (5 - level.text.length)

/-- A text with four blanks behind each line break. -/
def indented (text : List Char) : List Char :=
  text.flatMap fun c => if c = '\n' then "\n    ".toList else [c]

/-- The record as it is shown, with the line break that ends it.  A terminal command that the text
leaves open hides that line break too. -/
def LogRecord.shown (record : LogRecord) : String :=
  let head := "[" ++ record.level.column ++ " " ++ record.source ++ "] "
  String.ofList (Text.printed (head.toList ++ indented record.text.toList ++ ['\n']))

/-- The records of a log that are shown. -/
def shownText (threshold : Threshold) (log : List LogRecord) : String :=
  String.join ((log.filter fun record => threshold.shows record.level).map LogRecord.shown)

end HackVm
