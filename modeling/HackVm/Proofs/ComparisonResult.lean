import HackVm.Proofs.CommandRun
import HackVm.Proofs.DistinctLabels
import HackVm.Proofs.FrameLayout
import HackVm.Proofs.Site

/-!
# What comparisons tell

A comparison replaces the two words on top of the stack by a truth value.  `eq` tells whether they
are the same word.  `gt` and `lt` look at the sign of a difference that wraps, so they tell the order
of two signed numbers as long as their difference is itself a signed number of sixteen bits, and the
opposite otherwise.

* `Word.signed_sub_cases`: a difference that does not fit wraps to one of the other sign.
* `Comparison.holds_iff_ordered`: so the sign tells the order exactly if the difference fits.
* `comparison_exact`: what a comparison of a loaded program does, word by word.
-/

namespace HackVm

open Register

/-! ### Signed differences -/

namespace Word

/-- Whether the difference of two signed numbers is one of sixteen bits. -/
def DifferenceFits (x y : Word) : Prop :=
  -32768 ≤ signed x - signed y ∧ signed x - signed y ≤ 32767

/-- The signed reading of a word is the only number of sixteen bits that the word stands for. -/
theorem signed_eq_of_emod {w : Word} {d : Int} (hMod : (w.toNat : Int) = d % 65536)
    (hLow : -32768 ≤ d) (hHigh : d ≤ 32767) : signed w = d := by
  unfold signed
  split <;> omega

theorem toNat_sub_emod (x y : Word) :
    ((x - y).toNat : Int) = (signed x - signed y) % 65536 := by
  have hx := x.toNat_lt
  have hy := y.toNat_lt
  have hSub : (x - y).toNat = (65536 - y.toNat + x.toNat) % 65536 := UInt16.toNat_sub x y
  rw [hSub]
  unfold signed
  split <;> split <;> omega

/-- **A difference that does not fit wraps to one of the other sign.** -/
theorem signed_sub_cases (x y : Word) :
    (DifferenceFits x y ∧ signed (x - y) = signed x - signed y) ∨
      (¬DifferenceFits x y ∧ signed y < signed x ∧ signed (x - y) < 0) ∨
      (¬DifferenceFits x y ∧ signed x < signed y ∧ 0 < signed (x - y)) := by
  have hMod := toNat_sub_emod x y
  have hx := neg_32768_le_signed x
  have hx' := signed_lt_32768 x
  have hy := neg_32768_le_signed y
  have hy' := signed_lt_32768 y
  unfold DifferenceFits
  rcases Int.lt_trichotomy (signed x) (signed y) with hLt | hEq | hGt
  · by_cases hLow : -32768 ≤ signed x - signed y
    · exact Or.inl ⟨⟨hLow, by omega⟩, signed_eq_of_emod hMod hLow (by omega)⟩
    · have hWrapped : signed (x - y) = signed x - signed y + 65536 :=
        signed_eq_of_emod (by rw [hMod]; omega) (by omega) (by omega)
      exact Or.inr (Or.inr ⟨fun h => hLow h.1, hLt, by omega⟩)
  · exact Or.inl ⟨⟨by omega, by omega⟩, signed_eq_of_emod hMod (by omega) (by omega)⟩
  · by_cases hHigh : signed x - signed y ≤ 32767
    · exact Or.inl ⟨⟨by omega, hHigh⟩, signed_eq_of_emod hMod (by omega) hHigh⟩
    · have hWrapped : signed (x - y) = signed x - signed y - 65536 :=
        signed_eq_of_emod (by rw [hMod]; omega) (by omega) (by omega)
      exact Or.inr (Or.inl ⟨fun h => hHigh h.2, hGt, by omega⟩)

theorem sub_eq_zero_iff {x y : Word} : x - y = 0 ↔ x = y := by
  rw [← UInt16.toNat_inj, ← UInt16.toNat_inj, UInt16.toNat_sub, UInt16.toNat_zero]
  have hx := x.toNat_lt
  have hy := y.toNat_lt
  omega

theorem ofBool_eq_iff {b : Bool} : ofBool b = 0xFFFF ↔ b = true := by
  cases b <;> decide

theorem ofBool_cases (b : Bool) : ofBool b = 0xFFFF ∨ ofBool b = 0 := by
  cases b <;> decide

end Word

namespace Comparison

/-- The relation of two signed numbers that the comparison is named after. -/
def Ordered (x y : Word) : Comparison → Prop
  | eq => x = y
  | gt => Word.signed y < Word.signed x
  | lt => Word.signed x < Word.signed y

theorem holds_eq_iff {difference : Word} : eq.holds difference = true ↔ difference = 0 :=
  decide_eq_true_iff

theorem holds_gt_iff {difference : Word} :
    gt.holds difference = true ↔ 0 < Word.signed difference :=
  decide_eq_true_iff

theorem holds_lt_iff {difference : Word} :
    lt.holds difference = true ↔ Word.signed difference < 0 :=
  decide_eq_true_iff

/-- **The sign of the difference tells the order** exactly if the difference fits. -/
theorem holds_iff_ordered {op : Comparison} (h : op ≠ eq) (x y : Word) :
    (op.holds (x - y) = true ↔ op.Ordered x y) ↔ Word.DifferenceFits x y := by
  cases op with
  | eq => exact absurd rfl h
  | gt =>
    rw [holds_gt_iff, Ordered]
    rcases Word.signed_sub_cases x y with ⟨hFits, hEq⟩ | ⟨hWraps, hSign⟩ | ⟨hWraps, hSign⟩
    · exact iff_of_true (by rw [hEq]; omega) hFits
    · exact iff_of_false (by omega) hWraps
    · exact iff_of_false (by omega) hWraps
  | lt =>
    rw [holds_lt_iff, Ordered]
    rcases Word.signed_sub_cases x y with ⟨hFits, hEq⟩ | ⟨hWraps, hSign⟩ | ⟨hWraps, hSign⟩
    · exact iff_of_true (by rw [hEq]; omega) hFits
    · exact iff_of_false (by omega) hWraps
    · exact iff_of_false (by omega) hWraps

end Comparison

/-! ### Comparisons, word by word -/

/-- A comparison of two words above the word of `SP`. -/
theorem Memory.word_compare {memory : Memory} {op : Comparison} {p i : Nat}
    (hSp : (memory.get sp).toNat = p) (hLow : 2 < p) (hHigh : p ≤ ramSize) (hi : i < ramSize) :
    (memory.compare op).word i =
      if i = p - 2 then Word.ofBool (op.holds (memory.word (p - 2) - memory.word (p - 1)))
      else if i = 0 then memory.get sp - 1 else memory.word i := by
  have hZero : sp.toNat = 0 := rfl
  have hLowered : ((memory.set sp (memory.get sp - 1)).get sp).toNat = p - 1 := by
    rw [get_set_self]
    exact toNat_sub_one hSp (by omega)
  have hSlot : ((memory.set sp (memory.get sp - 1)).get sp - 1).toNat = p - 2 := by
    rw [toNat_sub_one hLowered (by omega), Nat.sub_sub]
  have hTop : (memory.set sp (memory.get sp - 1)).top = memory.word (p - 2) := by
    rw [top, get_eq_word, hSlot, word_set (by decide) (by omega), hZero, if_neg (by omega)]
  rw [compare, pop_eq hSp (by omega) hHigh]
  simp only
  rw [setTop, word_set (by omega) hi, hSlot, hTop, word_set (by decide) hi, hZero]

/-- **What a comparison does.**  From its code the machine comes to that of the next command, with
`SP` lowered by one and a truth value in place of the first of the two words, and every other word of
memory is as it was.  For `eq` it is true exactly if the two are the same word; for `gt` and `lt`,
exactly if the wrapped difference is positive or negative.  So `gt` and `lt` tell the order of the
signed numbers if their difference fits, and only then. -/
theorem comparison_exact {options : Options} {sources : List Source} {parts : List Part}
    {code : Code} {machine : Machine} (hRead : readSources sources = .ok parts)
    (hTranslate : translate options sources = .ok code) (hLoad : Machine.load code = .ok machine)
    {site : Site} (hSite : site ∈ sites options parts) {op : Comparison}
    (hCompare : site.command = .compare op)
    {here : Machine} (hHere : here.image = machine.image) (hPc : here.cpu.pc = site.address)
    {old : Memory} (hOld : here.cpu.memory = old) {p : Nat} (hSp : (old.get sp).toNat = p)
    (hLow : 18 ≤ p) (hHigh : p ≤ ramSize) {x y : Word} (hx : old.word (p - 2) = x)
    (hy : old.word (p - 1) = y) :
    ∃ n final, (Machine.step^[n] here).cpu.pc = site.next ∧
      (Machine.step^[n] here).cpu.memory = final ∧
      (final.get sp).toNat = p - 1 ∧
      (∀ i, 0 < i → i < ramSize → i ≠ p - 2 → final.word i = old.word i) ∧
      (final.word (p - 2) = 0xFFFF ∨ final.word (p - 2) = 0) ∧
      (op = .eq → (final.word (p - 2) = 0xFFFF ↔ x = y)) ∧
      (op = .gt → (final.word (p - 2) = 0xFFFF ↔ 0 < Word.signed (x - y))) ∧
      (op = .lt → (final.word (p - 2) = 0xFFFF ↔ Word.signed (x - y) < 0)) ∧
      (op ≠ .eq → ((final.word (p - 2) = 0xFFFF ↔ op.Ordered x y) ↔ Word.DifferenceFits x y)) := by
  obtain rfl := translate_eq_ok hRead hTranslate
  obtain ⟨hImage, -⟩ := Machine.load_eq_ok hLoad
  have hAt : Code.At (programCode options parts) here.cpu.pc site.code :=
    hPc ▸ Code.at_site hSite
  have hCode : site.code = op.code site.scope.trueSymbol site.scope.endSymbol := by
    rw [Site.code, hCompare]
    rfl
  rw [hCode] at hAt
  obtain ⟨n, hArrives⟩ := Cpu.arrivesAt_compare hImage hAt
  rw [← hCode, hPc, ← hHere, hOld] at hArrives
  obtain ⟨hNext, hFinal⟩ := Machine.arrives hArrives
  have hWord := fun {i} => @Memory.word_compare old op p i hSp (by omega) hHigh
  have hResult : (old.compare op).word (p - 2) = Word.ofBool (op.holds (x - y)) := by
    rw [hWord (by omega), if_pos rfl, hx, hy]
  refine ⟨7 + n, old.compare op, hNext, hFinal, ?_, ?_, ?_, ?_, ?_, ?_, ?_⟩
  · have hZero : (old.compare op).get sp = (old.compare op).word 0 := rfl
    rw [hZero, hWord (by decide), if_neg (by omega), if_pos rfl]
    exact Memory.toNat_sub_one hSp (by omega)
  · intro i hPos hi hSlot
    rw [hWord hi, if_neg hSlot, if_neg (by omega)]
  · rw [hResult]
    exact Word.ofBool_cases _
  · rintro rfl
    rw [hResult, Word.ofBool_eq_iff, Comparison.holds_eq_iff]
    exact Word.sub_eq_zero_iff
  · rintro rfl
    rw [hResult, Word.ofBool_eq_iff]
    exact Comparison.holds_gt_iff
  · rintro rfl
    rw [hResult, Word.ofBool_eq_iff]
    exact Comparison.holds_lt_iff
  · intro hOrder
    rw [hResult, Word.ofBool_eq_iff]
    exact Comparison.holds_iff_ordered hOrder x y

/-- The difference of the greatest number and the least one wraps, and `gt` does not hold. -/
theorem greatest_not_greater :
    ∃ code machine here n, translate ⟨false, false⟩ [.ofText "Max" "gt"] = .ok code ∧
      Machine.load code = .ok machine ∧ here.image = machine.image ∧ here.cpu.pc = 0 ∧
      here.cpu.memory = ((Memory.zeros.set sp 258).set 256 32767).set 257 32768 ∧
      ¬Word.DifferenceFits 32767 32768 ∧ Word.signed 32768 < Word.signed 32767 ∧
      (Machine.step^[n] here).cpu.pc = 14 ∧
      ((Machine.step^[n] here).cpu.memory.get sp).toNat = 257 ∧
      (Machine.step^[n] here).cpu.memory.word 256 = 0 := by
  let parts : List Part := [⟨"Max", [⟨⟨"Max.vm", 1⟩, .compare .gt⟩]⟩]
  have hRead : readSources [.ofText "Max" "gt"] = .ok parts := rfl
  have hNodup : (Code.labels (programCode ⟨false, false⟩ parts)).Nodup := by decide
  have hTranslate := translate_isOk hRead (by decide) hNodup
  obtain ⟨image, hImage⟩ := Image.load_isOk hNodup (by decide) (by decide +kernel) (by decide)
  have hLoad := Machine.load_of_image hImage
  let site : Site := ⟨⟨"Max", "Sys.init", 0, 0⟩, .compare .gt, 0⟩
  have hSite : site ∈ sites ⟨false, false⟩ parts := by decide
  obtain ⟨old, hOld⟩ : ∃ old, old = ((Memory.zeros.set sp 258).set 256 32767).set 257 32768 :=
    ⟨_, rfl⟩
  have hSp : (old.get sp).toNat = 258 := by rw [hOld]; decide +kernel
  have hx : old.word (258 - 2) = 32767 := by rw [hOld]; decide +kernel
  have hy : old.word (258 - 1) = 32768 := by rw [hOld]; decide +kernel
  let here : Machine := ⟨image, { memory := old }⟩
  have hHere : here.image = (Machine.mk image {}).image := rfl
  obtain ⟨n, final, hNext, hFinal, hTop, -, hTruth, -, hGreater, -⟩ :=
    comparison_exact hRead hTranslate hLoad hSite rfl hHere rfl rfl hSp (by decide) (by decide)
      hx hy
  refine ⟨_, _, here, n, hTranslate, hLoad, rfl, rfl, hOld, ?_, by decide, hNext, ?_, ?_⟩
  · unfold Word.DifferenceFits
    decide
  · rw [hFinal, hTop]
  · rw [hFinal]
    refine hTruth.resolve_left fun hTrue => ?_
    exact absurd ((hGreater rfl).mp hTrue) (by decide)

end HackVm
