import HackVm.Word

/-!
# Memory

The data memory has `ramSize` words, half as many as there are addresses: an address and the one
`ramSize` above it are the same word.  `get_set` says what a read finds behind a write.
-/

namespace HackVm

/-- How many words the data memory has. -/
def ramSize : Nat :=
  32768

/-- The contents of the data memory. -/
structure Memory where
  words : Vector Word ramSize
  deriving DecidableEq

namespace Memory

/-- The word of memory that an address means. -/
def cell (address : Word) : Fin ramSize :=
  ⟨address.toNat % ramSize, Nat.mod_lt _ (by decide)⟩

/-- Memory of zeros. -/
def zeros : Memory where
  words := Vector.replicate ramSize 0

/-- The word at an address. -/
def get (memory : Memory) (address : Word) : Word :=
  memory.words[cell address]

/-- Memory with another word at an address. -/
def set (memory : Memory) (address value : Word) : Memory where
  words := memory.words.set (cell address) value

/-- The words at the addresses from one on; the address wraps. -/
def slice (memory : Memory) (start : Word) (length : Nat) : List Word :=
  (List.range length).map fun i => memory.get (start + UInt16.ofNat i)

@[simp] theorem get_zeros (address : Word) : zeros.get address = 0 := by
  simp [zeros, get]

theorem get_set (memory : Memory) (address value other : Word) :
    (memory.set address value).get other =
      if cell address = cell other then value else memory.get other := by
  simp [set, get, Vector.getElem_set, Fin.ext_iff]

@[ext] theorem ext {memory other : Memory} (h : ∀ address, memory.get address = other.get address) :
    memory = other := by
  obtain ⟨words⟩ := memory
  obtain ⟨words'⟩ := other
  refine congrArg Memory.mk (Vector.ext fun i hi => ?_)
  have hCell : cell (UInt16.ofNat i) = ⟨i, hi⟩ := by
    unfold ramSize at hi
    simp only [cell, ramSize, Fin.ext_iff, UInt16.toNat_ofNat']
    omega
  have hWord := h (UInt16.ofNat i)
  simp only [get, hCell] at hWord
  exact hWord

end Memory

end HackVm
