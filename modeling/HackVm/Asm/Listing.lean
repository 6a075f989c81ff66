import HackVm.Asm.Instruction

/-!
# Listings

A listing is assembly under construction.  Code is added at its end, and comments are kept only if
the listing was started with comments on.
-/

namespace HackVm

/-- Assembly under construction. -/
structure Listing where
  /-- Whether comments are kept. -/
  comments : Bool
  instructions : Array Instruction := #[]
  deriving DecidableEq, Repr

namespace Listing

/-- The code of the listing. -/
def code (listing : Listing) : Code :=
  listing.instructions.toList

/-- How many instructions there are, labels and comments included. -/
def size (listing : Listing) : Nat :=
  listing.instructions.size

/-- Whether nothing was added yet. -/
def isEmpty (listing : Listing) : Bool :=
  listing.instructions.isEmpty

/-- Adds code at the end. -/
def append (listing : Listing) (code : Code) : Listing :=
  { listing with instructions := listing.instructions ++ code }

/-- Adds a comment at the end if comments are kept. -/
def comment (listing : Listing) (text : String) : Listing :=
  if listing.comments then listing.append [.comment text] else listing

/-- The code from a position on. -/
def drop (listing : Listing) (start : Nat) : Code :=
  (listing.instructions.extract start).toList

@[simp] theorem code_append (listing : Listing) (code : Code) :
    (listing.append code).code = listing.code ++ code := by
  simp [append, Listing.code]

theorem code_comment (listing : Listing) (text : String) :
    (listing.comment text).code =
      listing.code ++ if listing.comments then [.comment text] else [] := by
  unfold comment
  split <;> simp

@[simp] theorem length_code (listing : Listing) : listing.code.length = listing.size := by
  simp [code, size]

theorem drop_eq (listing : Listing) (start : Nat) :
    listing.drop start = listing.code.drop start := by
  simp only [drop, code, Array.toList_extract, List.extract_eq_take_drop]
  exact List.take_of_length_le (by simp)

end Listing

end HackVm
