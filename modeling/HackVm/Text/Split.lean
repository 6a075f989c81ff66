/-!
# Splitting a text

A text is cut at each occurrence of a character.  The cut is exact: the pieces of `a`, a separator
and `b` are the pieces of `a` followed by the pieces of `b` (`split_append`), so there is one piece
more than there are separators, and the empty text is one empty piece.
-/

namespace HackVm.Text

/-- The pieces of a text between the occurrences of a character. -/
def split (separator : Char) (text : List Char) : List (List Char) :=
  text.foldr (fun c rest => if c = separator then [] :: rest else rest.modifyHead (c :: ·)) [[]]

@[simp] theorem split_nil (separator : Char) : split separator [] = [[]] := rfl

@[simp] theorem split_cons_self (separator : Char) (text : List Char) :
    split separator (separator :: text) = [] :: split separator text := by
  simp [split]

theorem split_cons_of_ne {separator c : Char} (h : c ≠ separator) (text : List Char) :
    split separator (c :: text) = (split separator text).modifyHead (c :: ·) := by
  simp [split, h]

@[simp] theorem split_ne_nil (separator : Char) (text : List Char) : split separator text ≠ [] := by
  induction text with
  | nil => simp
  | cons c text ih =>
    by_cases hc : c = separator
    · simp [hc]
    · simpa [split_cons_of_ne hc] using ih

theorem split_append (separator : Char) (a b : List Char) :
    split separator (a ++ separator :: b) = split separator a ++ split separator b := by
  induction a with
  | nil => simp
  | cons c a ih =>
    by_cases hc : c = separator
    · simp [hc, ih]
    · rw [List.cons_append, split_cons_of_ne hc, split_cons_of_ne hc, ih]
      obtain ⟨piece, pieces, hPieces⟩ := List.exists_cons_of_ne_nil (split_ne_nil separator a)
      simp [hPieces]

end HackVm.Text
