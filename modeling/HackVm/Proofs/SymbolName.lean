import HackVm.Code.Scope
import HackVm.Proofs.Loading
import HackVm.Text.Decimal

/-!
# What symbols are made of

All symbols of a program share one space of names.  A static variable is a file and an index with a
point between them, a label is a function and a name with a dollar sign between them, and both signs
may stand in names too.  An index has no point in it, so a static variable tells its file and its
index (`Scope.variableSymbol_inj`).  A label tells its function and its name if no dollar sign
stands in the name (`Scope.labelSymbol_inj`): otherwise the same symbol may be cut at another place
(`Scope.labelSymbol_cases`).  The fixed symbols have neither sign.
-/

namespace HackVm

/-- Where two texts agree that are put together around the same character, they are cut at the same
place, or one of them has the character in a part of its own as well. -/
theorem append_cons_cases {a b a' b' : List Char} {c : Char} (h : a ++ c :: b = a' ++ c :: b') :
    (a = a' ∧ b = b') ∨ (∃ x, a' = a ++ c :: x ∧ b = x ++ c :: b') ∨
      ∃ x, a = a' ++ c :: x ∧ b' = x ++ c :: b := by
  rcases List.append_eq_append_iff.mp h with ⟨m, hFront, hBack⟩ | ⟨m, hFront, hBack⟩
  · cases m with
    | nil => exact Or.inl ⟨by simpa using hFront.symm, by simpa using hBack⟩
    | cons d x =>
      obtain ⟨rfl, rfl⟩ := List.cons.inj hBack
      exact Or.inr (Or.inl ⟨x, hFront, rfl⟩)
  · cases m with
    | nil => exact Or.inl ⟨by simpa using hFront, by simpa using hBack.symm⟩
    | cons d x =>
      obtain ⟨rfl, rfl⟩ := List.cons.inj hBack
      exact Or.inr (Or.inr ⟨x, hFront, rfl⟩)

/-! ### Numbered names -/

theorem isDigit_repr (n : Nat) : ∀ c ∈ n.repr.toList, c.isDigit = true := by
  intro c hc
  rw [Nat.toList_repr] at hc
  exact Nat.isDigit_of_mem_toDigits (by decide) (by decide) hc

theorem repr_inj {m n : Nat} : m.repr = n.repr ↔ m = n := by
  constructor
  · intro h
    have hRead := Text.decimal?_repr m
    rw [h, Text.decimal?_repr] at hRead
    exact (Option.some.inj hRead).symm
  · rintro rfl
    rfl

theorem toList_numbered (name : String) (n : Nat) :
    (name ++ "." ++ n.repr).toList = name.toList ++ '.' :: n.repr.toList := by
  simp

/-- **A name with a number behind a point tells both**, whatever stands before the point. -/
theorem numbered_inj {a b : String} {m n : Nat} :
    a ++ "." ++ m.repr = b ++ "." ++ n.repr ↔ a = b ∧ m = n := by
  constructor
  · intro h
    have hNoPoint : ∀ k : Nat, '.' ∉ k.repr.toList :=
      fun k hPoint => absurd (isDigit_repr k _ hPoint) (by decide)
    have hList := congrArg String.toList h
    rw [toList_numbered, toList_numbered] at hList
    rcases append_cons_cases hList with ⟨hName, hNumber⟩ | ⟨x, -, hNumber⟩ | ⟨x, -, hNumber⟩
    · exact ⟨String.toList_injective hName, repr_inj.mp (String.toList_injective hNumber)⟩
    · exact absurd (by rw [hNumber]; simp) (hNoPoint m)
    · exact absurd (by rw [hNumber]; simp) (hNoPoint n)
  · rintro ⟨rfl, rfl⟩
    rfl

/-! ### Static variables -/

/-- **A static variable tells its file and its index**, whatever stands in the name of the file. -/
theorem Scope.variableSymbol_inj {scope other : Scope} {i j : Word} :
    scope.variableSymbol i = other.variableSymbol j ↔ scope.file = other.file ∧ i = j :=
  numbered_inj.trans (and_congr_right fun _ => UInt16.toNat_inj)

theorem Scope.dollar_mem_variableSymbol {scope : Scope} {index : Word}
    (h : '$' ∈ (scope.variableSymbol index).toList) : '$' ∈ scope.file.toList := by
  rw [variableSymbol, Word.decimal, toList_numbered] at h
  rcases List.mem_append.mp h with hFile | hRest
  · exact hFile
  · rcases List.mem_cons.mp hRest with hPoint | hIndex
    · exact absurd hPoint (by decide)
    · exact absurd (isDigit_repr index.toNat _ hIndex) (by decide)

/-! ### Labels -/

theorem Scope.toList_labelSymbol (scope : Scope) (label : String) :
    (scope.labelSymbol label).toList = scope.function.toList ++ '$' :: label.toList := by
  simp [labelSymbol]

theorem Scope.dollar_mem_labelSymbol (scope : Scope) (label : String) :
    '$' ∈ (scope.labelSymbol label).toList := by
  simp [toList_labelSymbol]

theorem Scope.labelSymbol_ne_function (scope : Scope) (label : String) :
    scope.labelSymbol label ≠ scope.function := by
  intro h
  have hLength := congrArg List.length (congrArg String.toList h)
  rw [toList_labelSymbol, List.length_append, List.length_cons] at hLength
  omega

/-- **Two labels with one symbol** are the same label of the same function, or one of the functions
has the other in front of a dollar sign. -/
theorem Scope.labelSymbol_cases {scope other : Scope} {a b : String}
    (h : scope.labelSymbol a = other.labelSymbol b) :
    (scope.function = other.function ∧ a = b) ∨
      (∃ x, other.function = scope.labelSymbol x ∧ a = x ++ "$" ++ b) ∨
        ∃ x, scope.function = other.labelSymbol x ∧ b = x ++ "$" ++ a := by
  have hList := congrArg String.toList h
  rw [toList_labelSymbol, toList_labelSymbol] at hList
  rcases append_cons_cases hList with ⟨hFunction, hLabel⟩ | ⟨x, hFunction, hLabel⟩ |
    ⟨x, hFunction, hLabel⟩
  · exact Or.inl ⟨String.toList_injective hFunction, String.toList_injective hLabel⟩
  · refine Or.inr (Or.inl ⟨String.ofList x, String.toList_injective ?_,
      String.toList_injective ?_⟩)
    · simp [toList_labelSymbol, hFunction]
    · simp [hLabel]
  · refine Or.inr (Or.inr ⟨String.ofList x, String.toList_injective ?_,
      String.toList_injective ?_⟩)
    · simp [toList_labelSymbol, hFunction]
    · simp [hLabel]

/-- Labels without a dollar sign in their names tell their functions, whatever these are. -/
theorem Scope.labelSymbol_inj {scope other : Scope} {a b : String} (ha : '$' ∉ a.toList)
    (hb : '$' ∉ b.toList) (h : scope.labelSymbol a = other.labelSymbol b) :
    scope.function = other.function ∧ a = b := by
  rcases labelSymbol_cases h with hSame | ⟨x, -, rfl⟩ | ⟨x, -, rfl⟩
  · exact hSame
  · exact absurd (by simp) ha
  · exact absurd (by simp) hb

/-! ### Fixed symbols -/

theorem Image.dollar_not_mem_fixed : ∀ name ∈ fixedNames, '$' ∉ name.toList := by
  decide

end HackVm
