import HackVm.Word

/-!
# The commands of the stack language

A program is a sequence of commands over a stack of words and eight memory segments.  A command is
a keyword with its operands: `Command.keyword` and `Command.operands` take the two apart, and there
are seventeen keywords (`Keyword.all`).

`Command.effect` says how many values a command takes off the stack and how many it leaves there.
-/

namespace HackVm

/-- The memory segments a value can be pushed from and popped into. -/
inductive Segment
  | constant
  | locals
  | static
  | argument
  | this
  | that
  | pointer
  | temp
  deriving DecidableEq, Repr

namespace Segment

/-- The segment's name in a command. -/
def text : Segment → String
  | constant => "constant"
  | locals => "local"
  | static => "static"
  | argument => "argument"
  | this => "this"
  | that => "that"
  | pointer => "pointer"
  | temp => "temp"

/-- Every segment. -/
def all : List Segment :=
  [constant, locals, static, argument, this, that, pointer, temp]

theorem mem_all (segment : Segment) : segment ∈ all := by
  cases segment <;> decide

end Segment

/-- Operators that replace the top of the stack. -/
inductive UnaryOp
  | neg
  | not
  deriving DecidableEq, Repr

/-- Operators that replace the two topmost values by a word computed from both. -/
inductive BinaryOp
  | add
  | sub
  | and
  | or
  deriving DecidableEq, Repr

/-- Operators that replace the two topmost values by a truth value, `-1` or `0`. -/
inductive Comparison
  | eq
  | gt
  | lt
  deriving DecidableEq, Repr

/-- The word that opens a command. -/
inductive Keyword
  | push
  | pop
  | unary (op : UnaryOp)
  | binary (op : BinaryOp)
  | compare (op : Comparison)
  | label
  | goto
  | ifGoto
  | function
  | call
  | ret
  deriving DecidableEq, Repr

namespace Keyword

/-- The keyword as it is written. -/
def text : Keyword → String
  | push => "push"
  | pop => "pop"
  | unary .neg => "neg"
  | unary .not => "not"
  | binary .add => "add"
  | binary .sub => "sub"
  | binary .and => "and"
  | binary .or => "or"
  | compare .eq => "eq"
  | compare .gt => "gt"
  | compare .lt => "lt"
  | label => "label"
  | goto => "goto"
  | ifGoto => "if-goto"
  | function => "function"
  | call => "call"
  | ret => "return"

/-- Every keyword. -/
def all : List Keyword :=
  [push, pop, binary .add, binary .sub, unary .neg, compare .eq, compare .gt, compare .lt,
    binary .and, binary .or, unary .not, label, goto, ifGoto, function, call, ret]

theorem mem_all (keyword : Keyword) : keyword ∈ all := by
  rcases keyword with _ | _ | (_ | _) | (_ | _ | _ | _) | (_ | _ | _) | _ | _ | _ | _ | _ | _ <;>
    decide

end Keyword

/-- A command.  Names are any text and numbers any word here; what a line of source may spell is
the reader's business. -/
inductive Command
  | push (segment : Segment) (index : Word)
  | pop (segment : Segment) (index : Word)
  | unary (op : UnaryOp)
  | binary (op : BinaryOp)
  | compare (op : Comparison)
  /-- Name this point of the current function. -/
  | label (name : String)
  /-- Continue at a label of the current function. -/
  | goto (name : String)
  /-- Pop a value and continue at a label if it is not zero. -/
  | ifGoto (name : String)
  /-- Begin a function with a number of locals, all zero. -/
  | function (name : String) (locals : Word)
  /-- Call a function on the topmost values. -/
  | call (name : String) (arguments : Word)
  /-- Give the top value to the caller and continue there. -/
  | ret
  deriving DecidableEq, Repr

/-- How a command changes the height of the stack. -/
structure Effect where
  /-- Values taken off the stack. -/
  pops : Nat
  /-- Values put on the stack after that. -/
  pushes : Nat
  deriving DecidableEq, Repr

namespace Command

/-- The word that opens the command. -/
def keyword : Command → Keyword
  | push .. => .push
  | pop .. => .pop
  | unary op => .unary op
  | binary op => .binary op
  | compare op => .compare op
  | label _ => .label
  | goto _ => .goto
  | ifGoto _ => .ifGoto
  | function .. => .function
  | call .. => .call
  | ret => .ret

/-- The words that follow the keyword. -/
def operands : Command → List String
  | push segment index => [segment.text, Word.decimal index]
  | pop segment index => [segment.text, Word.decimal index]
  | unary _ => []
  | binary _ => []
  | compare _ => []
  | label name => [name]
  | goto name => [name]
  | ifGoto name => [name]
  | function name locals => [name, Word.decimal locals]
  | call name arguments => [name, Word.decimal arguments]
  | ret => []

/-- The command on one line, its words parted by single spaces. -/
def text (command : Command) : String :=
  " ".intercalate (command.keyword.text :: command.operands)

/-- The values a command takes and leaves.  A `function` counts its locals as left on the stack; a
`return` takes the value that it hands to the caller. -/
def effect : Command → Effect
  | push .. => ⟨0, 1⟩
  | pop .. => ⟨1, 0⟩
  | unary _ => ⟨1, 1⟩
  | binary _ => ⟨2, 1⟩
  | compare _ => ⟨2, 1⟩
  | label _ => ⟨0, 0⟩
  | goto _ => ⟨0, 0⟩
  | ifGoto _ => ⟨1, 0⟩
  | function _ locals => ⟨0, locals.toNat⟩
  | call _ arguments => ⟨arguments.toNat, 1⟩
  | ret => ⟨1, 0⟩

end Command

end HackVm
