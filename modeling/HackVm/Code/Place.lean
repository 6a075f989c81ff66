import HackVm.Code.Scope
import HackVm.Code.Stack
import HackVm.Error

/-!
# Places of memory segments

A segment and an index name a place (`Segment.place`).  A `constant` is the index itself; `local`,
`argument`, `this` and `that` count from the address in a register; `temp`, `pointer` and `static`
are fixed words of memory.

A value is read from any place into `D` (`Place.read`).  To store one, the address must be at hand
while `D` holds the value (`Place.target?`): either it is fixed, or it is computed first and kept in
`popRegister`.
-/

namespace HackVm

open Instruction

/-- The address of `temp 0`. -/
def tempBase : Word :=
  5

/-- How many words `temp` has. -/
def tempSize : Word :=
  8

/-- The address of `pointer 0`. -/
def pointerBase : Word :=
  3

/-- How many words `pointer` has. -/
def pointerSize : Word :=
  2

/-- Keeps the address to pop into while the value is popped. -/
def popRegister : String :=
  "R13"

/-- What a segment and an index stand for. -/
inductive Place
  /-- A number that is no word of memory. -/
  | literal (value : Word)
  /-- The word a number of words above the address in a register. -/
  | based (register : String) (offset : Word)
  /-- A word at a known address. -/
  | fixed (address : Address)
  deriving DecidableEq, Repr

/-- A word of a segment with a fixed place in memory. -/
def Segment.slot (segment : Segment) (base size index : Word) : Except SegmentFault Place :=
  if index < size then .ok (.fixed (.number (base + index))) else .error (.outOfRange segment index)

/-- The place that a segment and an index name. -/
def Segment.place (scope : Scope) (segment : Segment) (index : Word) : Except SegmentFault Place :=
  match segment with
  | constant => .ok (.literal index)
  | locals => .ok (.based "LCL" index)
  | argument => .ok (.based "ARG" index)
  | this => .ok (.based "THIS" index)
  | that => .ok (.based "THAT" index)
  | static => .ok (.fixed (.symbol (scope.variableSymbol index)))
  | temp => slot temp tempBase tempSize index
  | pointer => slot pointer pointerBase pointerSize index

/-- Where a popped value goes. -/
inductive Target
  /-- To a known address. -/
  | direct (address : Address)
  /-- To the address in `D`. -/
  | computed
  deriving DecidableEq, Repr

namespace Place

/-- Reads the value into `D`. -/
def read : Place → Code
  | literal value => [number value, set .D (.val .A)]
  | based register offset =>
    [symbol register, set .D (.val .M), number offset, set .A (.add .A), set .D (.val .M)]
  | fixed address => [load address, set .D (.val .M)]

/-- Where a value is stored, and the code that finds the address; `none` for a number. -/
def target? : Place → Option (Target × Code)
  | literal _ => none
  | based register offset =>
    some (.computed, [symbol register, set .D (.val .M), number offset, set .D (.add .A)])
  | fixed address => some (.direct address, [])

end Place

/-- Reads a place of a segment into `D`. -/
def Segment.read (scope : Scope) (segment : Segment) (index : Word) : Except SegmentFault Code := do
  return (← segment.place scope index).read

/-- Where a place of a segment is stored, and the code that finds the address. -/
def Segment.target (scope : Scope) (segment : Segment) (index : Word) :
    Except SegmentFault (Target × Code) := do
  match (← segment.place scope index).target? with
  | some target => return target
  | none => throw (.readOnly segment)

/-- Pops a value, once the code that finds the address has run. -/
def Target.store : Target → Code
  | .direct address => popD ++ [load address, set .M .d]
  | .computed =>
    [symbol popRegister, set .M .d] ++ popD ++ [symbol popRegister, set .A (.val .M), set .M .d]

/-- Pushes the value of a place. -/
def pushCode (scope : Scope) (segment : Segment) (index : Word) : Except SegmentFault Code := do
  return (← segment.read scope index) ++ pushD

/-- Pops a value into a place. -/
def popCode (scope : Scope) (segment : Segment) (index : Word) : Except SegmentFault Code := do
  let (target, find) ← segment.target scope index
  return find ++ target.store

end HackVm
