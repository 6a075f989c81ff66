import HackVm.Command
import HackVm.Text.Blank
import HackVm.Text.Decimal
import HackVm.Text.Fields

/-!
# Reading a command from a line

A line is a command if its fields are a keyword and the operands that the keyword calls for.  The
grammar of an operand is that of a segment name, of a name or of a number:

* a name is a non-empty word over the letters and digits of ASCII and `_`, `.`, `$` and `:`, and
  does not start with a digit;
* a number is a run of decimal digits, of any length, with a value of at most `maxNumber`, the
  largest value that one instruction of the machine can load.

A line that is no command has one of two faults.  It is *unrecognized* if its first word is not a
keyword, and *malformed* otherwise.  The first word ends at any blank character, the fields only at
spaces and tabs.
-/

namespace HackVm

open Text

/-- The largest number a command may carry, and the largest an instruction can load. -/
def maxNumber : Nat :=
  32767

/-- Whether a character may stand in a name. -/
def isNameChar (c : Char) : Bool :=
  c.isAlphanum || c == '_' || c == '.' || c == '$' || c == ':'

/-- Whether a word is a name. -/
def isName (word : List Char) : Bool :=
  match word with
  | [] => false
  | c :: _ => !c.isDigit && word.all isNameChar

/-- The name that a word spells. -/
def readName? (word : List Char) : Option String :=
  if isName word then some (String.ofList word) else none

/-- The number that a word spells. -/
def readNumber? (word : List Char) : Option Word := do
  let n ← decimal? word
  if n ≤ maxNumber then some (UInt16.ofNat n) else none

/-- The segment that a word names. -/
def Segment.read? (word : List Char) : Option Segment :=
  Segment.all.find? (·.text.toList == word)

namespace Keyword

/-- The keyword that a word is. -/
def read? (word : List Char) : Option Keyword :=
  all.find? (·.text.toList == word)

/-- The command that a keyword and its operands make. -/
def command? : Keyword → List (List Char) → Option Command
  | push, [segment, index] => return .push (← Segment.read? segment) (← readNumber? index)
  | pop, [segment, index] => return .pop (← Segment.read? segment) (← readNumber? index)
  | unary op, [] => some (.unary op)
  | binary op, [] => some (.binary op)
  | compare op, [] => some (.compare op)
  | label, [name] => return .label (← readName? name)
  | goto, [name] => return .goto (← readName? name)
  | ifGoto, [name] => return .ifGoto (← readName? name)
  | function, [name, locals] => return .function (← readName? name) (← readNumber? locals)
  | call, [name, arguments] => return .call (← readName? name) (← readNumber? arguments)
  | ret, [] => some .ret
  | _, _ => none

/-- What a line with this keyword is expected to be. -/
def usage : Keyword → String
  | push | pop => "expected `<segment> <index>` with an index up to 32767"
  | label | goto | ifGoto => "expected a single label name"
  | function | call => "expected `<name> <count>` with a count up to 32767"
  | unary _ | binary _ | compare _ | ret => "expected no operands"

end Keyword

/-- Why a line is not a command. -/
inductive LineFault
  /-- The first word is not a keyword. -/
  | unrecognized
  /-- The first word is this keyword, and the line is not one of its commands. -/
  | malformed (keyword : Keyword)
  deriving DecidableEq, Repr

namespace Command

/-- The command that the fields of a line make. -/
def ofFields? : List (List Char) → Option Command
  | [] => none
  | word :: operands => do (← Keyword.read? word).command? operands

/-- Reads a line that holds a command and nothing else. -/
def read (line : List Char) : Except LineFault Command :=
  match Keyword.read? ((firstWord? line).getD line) with
  | none => .error .unrecognized
  | some keyword =>
    match ofFields? (fields line) with
    | some command => .ok command
    | none => .error (.malformed keyword)

end Command

end HackVm
