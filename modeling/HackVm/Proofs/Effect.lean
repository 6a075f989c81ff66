import HackVm.Command
import HackVm.Machine.Memory

/-!
# What commands do to memory

The effect of each command on the data memory, without any code.  The stack lies in memory like
everything else: `SP`, the four pointers and the three scratch registers are words at fixed
addresses (`Register`), and a command may be aimed at any of them.  So each effect is a sequence of
reads and writes, in a fixed order.

* `Memory.push` stores the value in the word that `SP` points at, and raises `SP` then.
* `Memory.pushUnder` raises `SP` first.  That makes a difference if the word that `SP` points at is
  that of `SP` itself, and only then (`Memory.pushUnder_eq_push_iff`).
* `Memory.pop` lowers `SP` and takes the value that it points at then.
* `Memory.call` saves the frame of the caller and sets up that of the function called.
* `Memory.ret` puts the result in place of the first argument and gives the caller its frame back;
  the address to continue at is in `Register.back` then.
-/

namespace HackVm

/-! ### Words with a fixed place -/

namespace Register

abbrev sp : Word := 0
abbrev lcl : Word := 1
abbrev arg : Word := 2
abbrev this : Word := 3
abbrev that : Word := 4

/-- Where the address to pop into is kept while the value is popped. -/
abbrev target : Word := 13
/-- Where the address above the frame is kept during a return. -/
abbrev frame : Word := 14
/-- Where the address to return to is kept during a return. -/
abbrev back : Word := 15

end Register

/-! ### Operators -/

/-- The word that replaces the top of the stack. -/
def UnaryOp.value (x : Word) : UnaryOp → Word
  | neg => -x
  | not => ~~~x

/-- The word that replaces the two topmost words, `y` on top of `x`. -/
def BinaryOp.value (x y : Word) : BinaryOp → Word
  | add => x + y
  | sub => x - y
  | and => x &&& y
  | or => x ||| y

/-- Whether a comparison holds, by the wrapped difference of the two words. -/
def Comparison.holds (difference : Word) : Comparison → Bool
  | eq => difference = 0
  | gt => 0 < Word.signed difference
  | lt => Word.signed difference < 0

/-- The word for a truth value. -/
def Word.ofBool (b : Bool) : Word :=
  if b then -1 else 0

/-! ### Segments -/

/-- The register from which a segment counts, for the four segments that move. -/
def Segment.base? : Segment → Option Word
  | locals => some Register.lcl
  | argument => some Register.arg
  | this => some Register.this
  | that => some Register.that
  | constant | static | pointer | temp => none

/-- The address of a word of a segment that stays where it is; `cell` is the address of the file's
static variable of this index. -/
def Segment.fixed? (index cell : Word) : Segment → Option Word
  | static => some cell
  | pointer => some (3 + index)
  | temp => some (5 + index)
  | constant | locals | argument | this | that => none

namespace Memory

open Register

@[simp] theorem get_set_self (memory : Memory) (address value : Word) :
    (memory.set address value).get address = value := by
  rw [get_set, if_pos rfl]

theorem get_set_of_ne {address other : Word} (h : cell address ≠ cell other) (memory : Memory)
    (value : Word) : (memory.set address value).get other = memory.get other := by
  rw [get_set, if_neg h]

/-! ### The stack -/

/-- Puts a value on the stack, and raises `SP` then. -/
def push (memory : Memory) (value : Word) : Memory :=
  let stored := memory.set (memory.get sp) value
  stored.set sp (stored.get sp + 1)

/-- Raises `SP`, and puts a value under it then. -/
def pushUnder (memory : Memory) (value : Word) : Memory :=
  (memory.set sp (memory.get sp + 1)).set (memory.get sp) value

/-- Takes the top value off the stack. -/
def pop (memory : Memory) : Word × Memory :=
  let lowered := memory.set sp (memory.get sp - 1)
  (lowered.get (lowered.get sp), lowered)

/-- The value on top of the stack. -/
def top (memory : Memory) : Word :=
  memory.get (memory.get sp - 1)

/-- Replaces the value on top of the stack. -/
def setTop (memory : Memory) (value : Word) : Memory :=
  memory.set (memory.get sp - 1) value

/-! ### Commands -/

/-- The word that a place of a segment has; a `constant` is the index itself. -/
def read (memory : Memory) (segment : Segment) (index cell : Word) : Word :=
  match segment.base?, segment.fixed? index cell with
  | some register, _ => memory.get (memory.get register + index)
  | none, some address => memory.get address
  | none, none => index

/-- Pops into a place of a segment.  Where the address must be computed, that is done before the
value is popped; nothing is popped into a `constant`. -/
def popInto (memory : Memory) (segment : Segment) (index cell : Word) : Memory :=
  match segment.base?, segment.fixed? index cell with
  | some register, _ =>
    let address := memory.get register + index
    let (value, rest) := (memory.set target address).pop
    rest.set address value
  | none, some address =>
    let (value, rest) := memory.pop
    rest.set address value
  | none, none => memory

/-- Replaces the top value. -/
def unary (memory : Memory) (op : UnaryOp) : Memory :=
  memory.setTop (op.value memory.top)

/-- Replaces the two top values. -/
def binary (memory : Memory) (op : BinaryOp) : Memory :=
  let (y, rest) := memory.pop
  rest.setTop (op.value rest.top y)

/-- Replaces the two top values by a truth value. -/
def compare (memory : Memory) (op : Comparison) : Memory :=
  let (y, rest) := memory.pop
  rest.setTop (Word.ofBool (op.holds (rest.top - y)))

section Frame

variable (put : Memory → Word → Memory)

/-- Makes room for the locals of a function. -/
def enter (memory : Memory) (locals : Word) : Memory :=
  (List.replicate locals.toNat 0).foldl put memory

/-- Puts the word in a register on the stack. -/
def save (memory : Memory) (register : Word) : Memory :=
  put memory (memory.get register)

/-- Puts the address to return to and the registers of the caller on the stack. -/
def saveFrame (memory : Memory) (address : Word) : Memory :=
  [lcl, arg, this, that].foldl (save put) (put memory address)

/-- Calls a function on the topmost values; `address` is where it shall return to. -/
def call (memory : Memory) (address arguments : Word) : Memory :=
  let saved := memory.saveFrame put address
  let framed := saved.set arg (saved.get sp - 5 - arguments)
  framed.set lcl (framed.get sp)

end Frame

/-- Copies the word at a distance below the top of the frame into a register. -/
def restore (memory : Memory) (register distance : Word) : Memory :=
  memory.set register (memory.get (memory.get frame - distance))

/-- Puts the top value in place of the first argument, and `SP` above it. -/
def putResult (memory : Memory) : Memory :=
  let (value, rest) := memory.pop
  let stored := rest.set (rest.get arg) value
  stored.set sp (stored.get arg + 1)

/-- Returns to the caller. -/
def ret (memory : Memory) : Memory :=
  let captured := (memory.set frame (memory.get lcl)).restore back 5
  (((captured.putResult.restore that 1).restore this 2).restore arg 3).restore lcl 4

/-! ### The order of the two writes of a push -/

/-- The next values that are put on the stack, so many of them, do not go into the word of `SP`. -/
def Clear (memory : Memory) (count : Nat) : Prop :=
  ∀ i < count, cell (memory.get sp + UInt16.ofNat i) ≠ cell sp

instance (memory : Memory) (count : Nat) : Decidable (memory.Clear count) :=
  inferInstanceAs (Decidable (∀ i < count, _))

theorem Clear.head {memory : Memory} {count : Nat} (h : memory.Clear (count + 1)) :
    cell (memory.get sp) ≠ cell sp := by
  simpa using h 0 (Nat.succ_pos count)

/-- A value that does not go into the word of `SP` raises `SP` by one. -/
theorem get_sp_push {memory : Memory} (h : cell (memory.get sp) ≠ cell sp) (value : Word) :
    (memory.push value).get sp = memory.get sp + 1 := by
  rw [push, get_set, if_pos rfl, get_set, if_neg h]

theorem Clear.push {memory : Memory} {count : Nat} (h : memory.Clear (count + 1)) (value : Word) :
    (memory.push value).Clear count := by
  intro i hi
  rw [get_sp_push h.head, UInt16.add_assoc, UInt16.add_comm 1]
  have := h (i + 1) (Nat.succ_lt_succ hi)
  rwa [UInt16.ofNat_add] at this

/-- **The order of the two writes** of a push matters exactly if both go into the same word. -/
theorem pushUnder_eq_push_iff (memory : Memory) (value : Word) :
    memory.pushUnder value = memory.push value ↔ cell (memory.get sp) ≠ cell sp := by
  constructor
  · intro h hSame
    have hSp := congrArg (Memory.get · sp) h
    simp only [pushUnder, push, get_set, hSame, if_true] at hSp
    have hNat := congrArg UInt16.toNat hSp
    rw [UInt16.toNat_add, UInt16.toNat_one] at hNat
    have := value.toNat_lt
    omega
  · intro h
    ext address
    rw [pushUnder, push, get_set, get_set, get_set, get_set, get_set, if_neg h]
    by_cases hTop : cell (memory.get sp) = cell address
    · rw [if_pos hTop, if_neg (fun hSp => h (hTop.trans hSp.symm)), if_pos hTop]
    · rw [if_neg hTop, if_neg hTop]

theorem enter_pushUnder {memory : Memory} {locals : Word} (h : memory.Clear locals.toNat) :
    memory.enter pushUnder locals = memory.enter push locals := by
  rw [enter, enter]
  generalize locals.toNat = count at h ⊢
  induction count generalizing memory with
  | zero => rfl
  | succ n ih =>
    rw [List.replicate_succ, List.foldl_cons, List.foldl_cons,
      (pushUnder_eq_push_iff memory 0).mpr h.head, ih (h.push 0)]

theorem foldl_save_pushUnder {registers : List Word} :
    ∀ {memory : Memory}, memory.Clear registers.length →
      registers.foldl (save pushUnder) memory = registers.foldl (save push) memory := by
  induction registers with
  | nil => intro memory _; rfl
  | cons register rest ih =>
    intro memory h
    rw [List.foldl_cons, List.foldl_cons, save, (pushUnder_eq_push_iff memory _).mpr h.head,
      ih (h.push _)]
    rfl

theorem call_pushUnder {memory : Memory} (h : memory.Clear 5) (address arguments : Word) :
    memory.call pushUnder address arguments = memory.call push address arguments := by
  have hSaved : memory.saveFrame pushUnder address = memory.saveFrame push address := by
    rw [saveFrame, saveFrame, (pushUnder_eq_push_iff memory address).mpr h.head,
      foldl_save_pushUnder (h.push address)]
  rw [call, call, hSaved]

end Memory

end HackVm
