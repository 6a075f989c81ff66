/-!
# Decimal numbers

A number is written as one or more of the digits `0` to `9`.  Leading zeros are allowed and no
sign is.  What `Nat.repr` writes reads back as the same number (`decimal?_repr`).
-/

namespace HackVm.Text

/-- The value of a text of decimal digits; `none` if it is empty or holds another character. -/
def decimal? (text : List Char) : Option Nat :=
  if text ≠ [] ∧ text.all Char.isDigit then some (Nat.ofDigitChars 10 text 0) else none

theorem decimal?_repr (n : Nat) : decimal? n.repr.toList = some n := by
  have hDigits : (Nat.toDigits 10 n).all Char.isDigit = true := by
    rw [List.all_eq_true]
    exact fun c hc => Nat.isDigit_of_mem_toDigits (by decide) (by decide) hc
  have hNonempty : Nat.toDigits 10 n ≠ [] := Nat.toDigits_ne_nil
  simp [decimal?, Nat.repr_eq_ofList_toDigits, hDigits, hNonempty]

end HackVm.Text
