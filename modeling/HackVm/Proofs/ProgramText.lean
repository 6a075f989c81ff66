import HackVm.Asm.Printer
import HackVm.Proofs.Lines
import HackVm.Proofs.SymbolName

/-!
# A program and its text

A program is written with a line for each instruction.  The text is cut into these lines again at its
line feeds, as long as no symbol, label or comment brings in a line feed of its own
(`split_render`).  The line tells the instruction: its first character tells an address, a label and
a comment from a computation, and in a computation the destination stands before `=` and the jump
behind `;`.  The one thing that a line does not tell is whether digits behind `@` are a symbol or
a number (`Address.IsPlain`).

* `Instruction.text_inj`: two instructions with the same line are the same.
* `render_eq_iff`: two programs with the same text are the same.
-/

namespace HackVm

open Text Instruction

/-! ### Texts of the parts -/

theorem Dest.text_inj {d e : Dest} (h : d.text = e.text) : d = e := by
  revert h
  cases d <;> cases e <;> decide

theorem Jump.text_inj {j k : Jump} (h : j.text = k.text) : j = k := by
  revert h
  cases j <;> cases k <;> decide

theorem Comp.text_inj {comp other : Comp} (h : comp.text = other.text) : comp = other := by
  have hAll : ∀ comp ∈ Comp.all, ∀ other ∈ Comp.all, comp.text = other.text → comp = other := by
    decide
  exact hAll comp comp.mem_all other other.mem_all h

/-- The characters that destinations, computations and jumps are written with. -/
def formulaAlphabet : List Char :=
  "ADMJGTEQLNP01+-!&|".toList

theorem Dest.text_subset (dest : Dest) : dest.text.toList ⊆ formulaAlphabet := by
  cases dest <;> decide

theorem Jump.text_subset (jump : Jump) : jump.text.toList ⊆ formulaAlphabet := by
  cases jump <;> decide

theorem Comp.text_subset (comp : Comp) : comp.text.toList ⊆ formulaAlphabet := by
  have hAll : ∀ comp ∈ Comp.all, comp.text.toList ⊆ formulaAlphabet := by
    decide
  exact hAll comp comp.mem_all

/-! ### Computations -/

/-- What stands in a computation behind the destination. -/
def formula (comp : Comp) (jump : Option Jump) : List Char :=
  comp.text.toList ++ jump.elim [] (';' :: ·.text.toList)

theorem toList_compute (dest : Option Dest) (comp : Comp) (jump : Option Jump) :
    (Instruction.compute dest comp jump).text.toList =
      dest.elim [] (·.text.toList ++ ['=']) ++ formula comp jump := by
  cases dest <;> cases jump <;> simp [Instruction.text, formula]

theorem mem_formula {comp : Comp} {jump : Option Jump} {c : Char} (h : c ∈ formula comp jump) :
    c = ';' ∨ c ∈ formulaAlphabet := by
  rcases List.mem_append.mp h with hComp | hJump
  · exact Or.inr (comp.text_subset hComp)
  · cases jump with
    | none => cases hJump
    | some jump => exact (List.mem_cons.mp hJump).imp_right (jump.text_subset ·)

theorem mem_compute {dest : Option Dest} {comp : Comp} {jump : Option Jump} {c : Char}
    (h : c ∈ (Instruction.compute dest comp jump).text.toList) :
    c = '=' ∨ c = ';' ∨ c ∈ formulaAlphabet := by
  rw [toList_compute, List.mem_append] at h
  rcases h with hDest | hRest
  · cases dest with
    | none => cases hDest
    | some dest =>
      rcases List.mem_append.mp hDest with hName | hSign
      · exact Or.inr (Or.inr (dest.text_subset hName))
      · exact Or.inl (List.mem_singleton.mp hSign)
  · exact Or.inr (mem_formula hRest)

/-- The sign `=` cuts the destination off, if there is one. -/
theorem split_compute (dest : Option Dest) (comp : Comp) (jump : Option Jump) :
    split '=' (Instruction.compute dest comp jump).text.toList =
      dest.toList.map (·.text.toList) ++ [formula comp jump] := by
  have hFormula : '=' ∉ formula comp jump := fun h => by
    have := mem_formula h
    revert this
    decide
  rw [toList_compute]
  cases dest with
  | none => exact split_of_not_mem hFormula
  | some dest =>
    have hDest : '=' ∉ dest.text.toList := fun h => by
      have := dest.text_subset h
      revert this
      decide
    simp [split_append, split_of_not_mem hDest, split_of_not_mem hFormula]

/-- The mark `;` cuts the jump off, if there is one. -/
theorem split_formula (comp : Comp) (jump : Option Jump) :
    split ';' (formula comp jump) = comp.text.toList :: jump.toList.map (·.text.toList) := by
  have hComp : ';' ∉ comp.text.toList := fun h => by
    have := comp.text_subset h
    revert this
    decide
  cases jump with
  | none => simp [formula, split_of_not_mem hComp]
  | some jump =>
    have hJump : ';' ∉ jump.text.toList := fun h => by
      have := jump.text_subset h
      revert this
      decide
    simp [formula, split_append, split_of_not_mem hComp, split_of_not_mem hJump]

theorem optional_text_inj {α : Type} {text : α → String} (hText : ∀ {a b}, text a = text b → a = b)
    {a b : Option α} (h : a.toList.map (text · |>.toList) = b.toList.map (text · |>.toList)) :
    a = b := by
  cases a with
  | none => cases b with
    | none => rfl
    | some b => cases h
  | some a => cases b with
    | none => cases h
    | some b => exact congrArg some (hText (String.toList_injective (List.cons.inj h).1))

/-- **A computation is told by its line.** -/
theorem compute_text_inj {dest dest' : Option Dest} {comp comp' : Comp} {jump jump' : Option Jump}
    (h : (Instruction.compute dest comp jump).text = (Instruction.compute dest' comp' jump').text) :
    dest = dest' ∧ comp = comp' ∧ jump = jump' := by
  have hSplit := congrArg (split '=' ·.toList) h
  simp only [split_compute] at hSplit
  obtain ⟨hDest, hFormula⟩ := List.append_inj' hSplit rfl
  have hParts := congrArg (split ';') (List.singleton_inj.mp hFormula)
  rw [split_formula, split_formula] at hParts
  obtain ⟨hComp, hJump⟩ := List.cons.inj hParts
  exact ⟨optional_text_inj Dest.text_inj hDest, Comp.text_inj (String.toList_injective hComp),
    optional_text_inj Jump.text_inj hJump⟩

/-! ### Instructions -/

/-- A symbol that is not written like a number, or a number. -/
def Address.IsPlain : Address → Prop
  | symbol name => ∀ value : Word, name ≠ Word.decimal value
  | number _ => True

/-- The text that an instruction takes over as it is: a symbol, a label or a comment. -/
def Instruction.ownText? : Instruction → Option String
  | load (.symbol name) => some name
  | label name => some name
  | comment text => some text
  | load (.number _) => none
  | compute .. => none

/-- The address that an instruction loads. -/
def Instruction.address? : Instruction → Option Address
  | load address => some address
  | compute .. => none
  | label _ => none
  | comment _ => none

/-- An instruction that can be told from its line: its own text stays on the line, and its address is
no symbol that is written like a number. -/
structure Instruction.IsPlain (i : Instruction) : Prop where
  one_line : ∀ text ∈ i.ownText?, '\n' ∉ text.toList
  address : ∀ address ∈ i.address?, address.IsPlain

-- the one number that a symbol can be written like is the number that it reads as
instance (name : String) : Decidable (Address.symbol name).IsPlain :=
  decidable_of_iff (name ≠ Word.decimal (UInt16.ofNat ((decimal? name.toList).getD 0))) <| by
    constructor
    · rintro h value rfl
      rw [Word.decimal, decimal?_repr, Option.getD_some, UInt16.ofNat_toNat] at h
      exact h rfl
    · exact fun h => h _

instance (address : Address) : Decidable address.IsPlain :=
  match address with
  | .symbol _ => inferInstance
  | .number _ => .isTrue trivial

instance (i : Instruction) : Decidable i.IsPlain :=
  decidable_of_iff ((∀ text ∈ i.ownText?, '\n' ∉ text.toList) ∧
      ∀ address ∈ i.address?, address.IsPlain)
    ⟨fun ⟨hText, hAddress⟩ => ⟨hText, hAddress⟩, fun h => ⟨h.one_line, h.address⟩⟩

theorem Address.text_inj {a b : Address} (ha : a.IsPlain) (hb : b.IsPlain) (h : a.text = b.text) :
    a = b := by
  cases a with
  | symbol name => cases b with
    | symbol other => exact congrArg symbol h
    | number value => exact absurd h (ha value)
  | number value => cases b with
    | symbol name => exact absurd h.symm (hb value)
    | number other => exact congrArg number (UInt16.toNat_inj.mp (repr_inj.mp h))

/-- The characters that a line starts with if it is no computation. -/
def lineMarks : List Char :=
  ['@', '(', '/']

/-- The character that tells the kind of a line; a computation has none. -/
def Instruction.mark? : Instruction → Option Char
  | load _ => some '@'
  | compute .. => none
  | label _ => some '('
  | comment _ => some '/'

/-- The kind of an instruction is told by the first character of its line. -/
theorem Instruction.mark?_eq (i : Instruction) :
    i.mark? = i.text.toList.head?.filter (· ∈ lineMarks) := by
  cases i with
  | load address => simp [mark?, text, lineMarks, Option.filter]
  | label name => simp [mark?, text, lineMarks, Option.filter]
  | comment text => simp [mark?, Instruction.text, lineMarks, Option.filter]
  | compute dest comp jump =>
    have hMarks : (lineMarks.all fun c => ¬ (c = '=' ∨ c = ';' ∨ c ∈ formulaAlphabet)) = true := by
      decide
    rw [mark?, eq_comm, Option.filter_eq_none_iff]
    intro c hc hMark
    have hNone := List.all_eq_true.mp hMarks c (by simpa using hMark)
    exact of_decide_eq_true hNone (mem_compute (List.mem_of_mem_head? hc))

/-- **An instruction is told by its line.** -/
theorem Instruction.text_inj {i j : Instruction} (hi : i.IsPlain) (hj : j.IsPlain)
    (h : i.text = j.text) : i = j := by
  have hMark : i.mark? = j.mark? := by
    rw [mark?_eq, mark?_eq, h]
  cases i with
  | load address => cases j with
    | load other =>
      have hAddress : address.text = other.text := by simpa [text] using h
      exact congrArg load (Address.text_inj (hi.address _ rfl) (hj.address _ rfl) hAddress)
    | _ => cases hMark
  | compute dest comp jump => cases j with
    | compute dest' comp' jump' =>
      obtain ⟨rfl, rfl, rfl⟩ := compute_text_inj h
      rfl
    | _ => cases hMark
  | label name => cases j with
    | label other => simpa [text] using h
    | _ => cases hMark
  | comment words => cases j with
    | comment other => simpa [text] using h
    | _ => cases hMark

/-- What an instruction adds to its own text is on one line. -/
theorem Instruction.lineFeed_not_mem_text {i : Instruction}
    (h : ∀ text ∈ i.ownText?, '\n' ∉ text.toList) : '\n' ∉ i.text.toList := by
  intro hMem
  cases i with
  | load address =>
    cases address with
    | symbol name =>
      have hName := h name rfl
      simp [text, Address.text, hName] at hMem
    | number value =>
      have hDigit : '\n' ∈ value.toNat.repr.toList := by
        simpa [text, Address.text, Word.decimal] using hMem
      exact absurd (isDigit_repr _ _ hDigit) (by decide)
  | compute dest comp jump =>
    have hNone : ¬ ('\n' = '=' ∨ '\n' = ';' ∨ '\n' ∈ formulaAlphabet) := by
      decide
    exact hNone (mem_compute hMem)
  | label name =>
    have hName := h name rfl
    simp [text, hName] at hMem
  | comment words =>
    have hWords := h words rfl
    simp [text, hWords] at hMem

/-! ### Programs -/

/-- **The lines of a program's text** are those of its instructions, and nothing stands behind the
last line feed. -/
theorem split_render {code : Code} (h : ∀ i ∈ code, '\n' ∉ i.text.toList) :
    split '\n' (render code).toList = code.map (·.text.toList) ++ [[]] := by
  rw [toList_render]
  induction code with
  | nil => rfl
  | cons i code ih =>
    obtain ⟨hLine, hRest⟩ := List.forall_mem_cons.mp h
    rw [List.flatMap_cons, List.append_assoc, List.singleton_append, split_append,
      split_of_not_mem hLine, ih hRest]
    rfl

theorem map_text_inj {code other : Code} (hCode : ∀ i ∈ code, i.IsPlain)
    (hOther : ∀ i ∈ other, i.IsPlain)
    (h : code.map (·.text.toList) = other.map (·.text.toList)) : code = other := by
  induction code generalizing other with
  | nil => exact (List.map_eq_nil_iff.mp h.symm).symm
  | cons i code ih =>
    cases other with
    | nil => cases h
    | cons j other =>
      obtain ⟨hLine, hRest⟩ := List.cons.inj h
      obtain ⟨hi, hCode⟩ := List.forall_mem_cons.mp hCode
      obtain ⟨hj, hOther⟩ := List.forall_mem_cons.mp hOther
      rw [Instruction.text_inj hi hj (String.toList_injective hLine), ih hCode hOther hRest]

/-- **The text of a program determines the program.** -/
theorem render_eq_iff {code other : Code} (hCode : ∀ i ∈ code, i.IsPlain)
    (hOther : ∀ i ∈ other, i.IsPlain) : render code = render other ↔ code = other := by
  constructor
  · intro h
    have hLines := congrArg (split '\n' ·.toList) h
    simp only [split_render fun i hi => i.lineFeed_not_mem_text (hCode i hi).one_line,
      split_render fun i hi => i.lineFeed_not_mem_text (hOther i hi).one_line] at hLines
    exact map_text_inj hCode hOther (List.append_cancel_right hLines)
  · rintro rfl
    rfl

/-- Code with a label and a comment that are written like other instructions. -/
def lookalikes (name : String) : Code :=
  [symbol name, label "D=A;JMP", comment "@7", number 7, set .D (.val .A)]

/-- Symbols may be written nearly like numbers. -/
theorem render_lookalikes :
    (∀ i ∈ lookalikes "65536", i.IsPlain) ∧ (∀ i ∈ lookalikes "007", i.IsPlain) ∧
      render (lookalikes "65536") ≠ render (lookalikes "007") :=
  ⟨by decide, by decide, fun h => absurd ((render_eq_iff (by decide) (by decide)).mp h) (by decide)⟩

/-- A symbol that is written like a number is not told from it. -/
example : render [symbol "7"] = render [number 7] := by
  decide

end HackVm
