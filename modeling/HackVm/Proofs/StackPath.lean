import HackVm.Statement

/-!
# Paths through a body

A function with its commands, or the commands before the first function, is a body of a program
(`IsBody`).  A path through a body begins at its first command with no value above the locals, goes
on to the next command or to a label that the command jumps to, and keeps count of the values
(`Path`).  Nothing is said of the way a condition is decided, so an `if-goto` goes both ways.
-/

namespace HackVm

namespace Command

/-- Whether the command begins a function. -/
def beginsFunction : Command → Bool
  | function .. => true
  | _ => false

/-- Whether the next command may follow. -/
def fallsThrough : Command → Bool
  | goto _ | ret => false
  | _ => true

/-- The label that the command may jump to. -/
def jump? : Command → Option String
  | goto name | ifGoto name => some name
  | _ => none

/-- The height of the stack above the locals behind a command.  A function begins at zero. -/
def heightAfter (command : Command) (height : Int) : Int :=
  match command with
  | function .. => 0
  | _ => height - command.effect.pops + command.effect.pushes

end Command

/-- A body with what stands before it and after it in a program. -/
structure IsBody (before body after : List Statement) : Prop where
  /-- Behind other commands a body begins with a function. -/
  head : before = [] ∨ ∀ s ∈ body.head?, s.command.beginsFunction = true
  /-- No function begins within a body. -/
  tail : ∀ s ∈ body.tail, s.command.beginsFunction = false
  /-- A body ends where a function begins. -/
  next : ∀ s ∈ after.head?, s.command.beginsFunction = true

/-- Whether a command at one place of a body may be followed by that at another. -/
def Flows (body : List Statement) (command : Command) (i j : Nat) : Prop :=
  (command.fallsThrough = true ∧ j = i + 1) ∨
    ∃ name, command.jump? = some name ∧ ∃ s, body[j]? = some s ∧ s.command = .label name

/-- The places that a path visits, each with the height of the stack there, the last one first. -/
inductive Path (body : List Statement) : List (Nat × Int) → Prop
  | start : body ≠ [] → Path body [(0, 0)]
  | step {i j : Nat} {height : Int} {visits : List (Nat × Int)} {s : Statement} :
      Path body ((i, height) :: visits) → body[i]? = some s → Flows body s.command i j →
        j < body.length → Path body ((j, s.command.heightAfter height) :: (i, height) :: visits)

/-- In a body a function begins at its first command if at all. -/
theorem IsBody.not_beginsFunction {before body after : List Statement}
    (h : IsBody before body after) {i : Nat} {s : Statement} (hPos : 0 < i)
    (hs : body[i]? = some s) : s.command.beginsFunction = false := by
  apply h.tail s
  rw [List.mem_iff_getElem?]
  exact ⟨i - 1, by rw [List.getElem?_tail, Nat.sub_add_cancel hPos, hs]⟩

end HackVm
