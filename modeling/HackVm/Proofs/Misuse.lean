import HackVm.Proofs.CommandCode

/-!
# Commands that misuse a segment

A command has no code if it misuses a segment: it pops into a number, or its index is too large for a
segment that has a fixed place (`Command.Misuses`).  This does not depend on the scope, and a segment
is read from the places into which values are popped, but for `constant`.

* `Segment.place_eq_error_iff`: which places are not there.
* `Command.code_eq_error_iff`: which commands have no code, and why.
-/

namespace HackVm

/-- A segment with a fixed place has no word of this index: `temp` has eight words, `pointer` two. -/
inductive Segment.Exceeds : Segment → Word → Prop
  | temp {index : Word} : 7 < index.toNat → Exceeds .temp index
  | pointer {index : Word} : 1 < index.toNat → Exceeds .pointer index

/-- How a command misuses a segment. -/
inductive Command.Misuses : Command → SegmentFault → Prop
  /-- Nothing is popped into a number. -/
  | popConstant (index : Word) : Misuses (.pop .constant index) (.readOnly .constant)
  | push {segment : Segment} {index : Word} : segment.Exceeds index →
      Misuses (.push segment index) (.outOfRange segment index)
  | pop {segment : Segment} {index : Word} : segment.Exceeds index →
      Misuses (.pop segment index) (.outOfRange segment index)

variable {scope : Scope} {segment : Segment} {index : Word} {fault : SegmentFault}

namespace Segment

/-! ### Places -/

theorem slot_eq_error_iff {base size : Word} :
    segment.slot base size index = .error fault ↔
      size.toNat ≤ index.toNat ∧ fault = .outOfRange segment index := by
  by_cases hIndex : index < size
  · have hLt := UInt16.lt_iff_toNat_lt.mp hIndex
    simp [slot, hIndex, Nat.not_le.mpr hLt]
  · have hLe := Nat.not_lt.mp fun h => hIndex (UInt16.lt_iff_toNat_lt.mpr h)
    simp [slot, hIndex, hLe, eq_comm]

/-- **The places that are not there** are the words of `temp` and `pointer` behind their last. -/
theorem place_eq_error_iff :
    segment.place scope index = .error fault ↔
      segment.Exceeds index ∧ fault = .outOfRange segment index := by
  cases segment with
  | temp =>
    refine slot_eq_error_iff.trans (and_congr_left fun _ => ?_)
    exact ⟨.temp, fun h => by cases h; assumption⟩
  | pointer =>
    refine slot_eq_error_iff.trans (and_congr_left fun _ => ?_)
    exact ⟨.pointer, fun h => by cases h; assumption⟩
  | _ => exact iff_of_false nofun (fun h => by cases h.1)

theorem read_eq_error_iff :
    segment.read scope index = .error fault ↔ segment.place scope index = .error fault := by
  rw [read]
  cases hPlace : segment.place scope index with
  | error other => constructor <;> (intro h; cases h; rfl)
  | ok place => constructor <;> (intro h; cases h)

/-- Only a number has no target. -/
theorem target_eq_error_iff (h : segment ≠ constant) :
    segment.target scope index = .error fault ↔ segment.place scope index = .error fault := by
  rw [target]
  cases hPlace : segment.place scope index with
  | error other => constructor <;> (intro h; cases h; rfl)
  | ok place =>
    cases has_of_place hPlace with
    | literal => exact absurd rfl h
    | _ => constructor <;> (intro hFault; cases hFault)

end Segment

namespace Command

/-! ### Commands -/

theorem push_eq_error_iff :
    (push segment index).code scope = .error fault ↔ segment.read scope index = .error fault := by
  rw [code, pushCode]
  cases segment.read scope index with
  | error other => constructor <;> (intro h; cases h; rfl)
  | ok found => constructor <;> (intro h; cases h)

theorem pop_eq_error_iff :
    (pop segment index).code scope = .error fault ↔ segment.target scope index = .error fault := by
  rw [code, popCode]
  cases segment.target scope index with
  | error other => constructor <;> (intro h; cases h; rfl)
  | ok found => constructor <;> (intro h; cases h)

/-- **Which commands have no code**, in any scope, and why. -/
theorem code_eq_error_iff {command : Command} :
    command.code scope = .error fault ↔ command.Misuses fault := by
  cases command with
  | push segment index =>
    rw [push_eq_error_iff, Segment.read_eq_error_iff, Segment.place_eq_error_iff]
    constructor
    · rintro ⟨hExceeds, rfl⟩
      exact .push hExceeds
    · intro h
      cases h with
      | push hExceeds => exact ⟨hExceeds, rfl⟩
  | pop segment index =>
    rw [pop_eq_error_iff]
    by_cases hConstant : segment = .constant
    · subst hConstant
      constructor
      · intro h
        cases h
        exact .popConstant index
      · intro h
        cases h with
        | popConstant => rfl
        | pop hExceeds => cases hExceeds
    · rw [Segment.target_eq_error_iff hConstant, Segment.place_eq_error_iff]
      constructor
      · rintro ⟨hExceeds, rfl⟩
        exact .pop hExceeds
      · intro h
        cases h with
        | popConstant => exact absurd rfl hConstant
        | pop hExceeds => exact ⟨hExceeds, rfl⟩
  | _ => exact iff_of_false nofun nofun

end Command

end HackVm
