/-!
# Words

The virtual machine and the computer below it know one kind of value, a word of sixteen bits.
Arithmetic on words wraps at `65536`; only `Word.minus` stops at zero.  A word stands for the number
that its bits spell.  Where it stands for a number with a sign, that number is its reading in two's
complement, `Word.signed`.
-/

namespace HackVm

/-- A value of the machine, sixteen bits wide. -/
abbrev Word := UInt16

instance : Coe Word Nat := ⟨UInt16.toNat⟩

namespace Word

/-- A word read in two's complement, a number from `-32768` to `32767`. -/
def signed (w : Word) : Int :=
  if w.toNat < 32768 then w.toNat else (w.toNat : Int) - 65536

/-- What is left of a word, zero if more is taken than there is. -/
def minus (a b : Word) : Word :=
  if a < b then 0 else a - b

/-- A word written in decimal, without a sign and without leading zeros. -/
def decimal (w : Word) : String :=
  w.toNat.repr

theorem toNat_minus (a b : Word) : (minus a b).toNat = a.toNat - b.toNat := by
  rw [minus]
  split
  · next hFew =>
    rw [UInt16.lt_iff_toNat_lt] at hFew
    rw [Nat.sub_eq_zero_of_le (Nat.le_of_lt hFew)]
    rfl
  · next hEnough =>
    rw [UInt16.not_lt] at hEnough
    exact UInt16.toNat_sub_of_le a b hEnough

theorem minus_zero (a : Word) : minus a 0 = a := by
  rw [← UInt16.toNat_inj, toNat_minus]
  rfl

theorem neg_32768_le_signed (w : Word) : -32768 ≤ signed w := by
  have := w.toNat_lt
  unfold signed
  split <;> omega

theorem signed_lt_32768 (w : Word) : signed w < 32768 := by
  have := w.toNat_lt
  unfold signed
  split <;> omega

end Word

end HackVm
