import HackVm.Proofs.CommandRun
import HackVm.Proofs.FrameLayout
import HackVm.Proofs.Misuse
import HackVm.Proofs.StaticStorage

/-!
# A value is moved

`push` followed by `pop` moves a value from one place of the segments to another.  Both resolve a
place to the same word of memory (`Segment.word?`), whatever code they find it with, and both accept
the same places, but for `constant`, into which nothing is popped.

* `Memory.read_eq_value`: a push takes the value of the place.
* `Memory.word_popInto`: a pop stores into the word of the place, lowers `SP` and touches nothing
  else but its scratch register.
* `Moved`: the two together, as a relation of the memory before and behind.
* `push_pop_moves`: what the program that consists of the two commands does.
-/

namespace HackVm

open Register

/-! ### The word of a place -/

/-- The word of memory that a place of a segment is.  A `constant` is none; `cell` is the address of
the file's static variable of this index. -/
def Segment.word? (memory : Memory) (index cell : Word) : Segment → Option Nat
  | constant => none
  | locals => some (((memory.get lcl).toNat + index.toNat) % ramSize)
  | argument => some (((memory.get arg).toNat + index.toNat) % ramSize)
  | this => some (((memory.get Register.this).toNat + index.toNat) % ramSize)
  | that => some (((memory.get Register.that).toNat + index.toNat) % ramSize)
  | static => some cell.toNat
  | pointer => some (3 + index.toNat)
  | temp => some (5 + index.toNat)

/-- The value of a place: the index itself for a `constant`, otherwise the word of the place. -/
def Segment.value (memory : Memory) (index cell : Word) (segment : Segment) : Word :=
  match segment.word? memory index cell with
  | some i => memory.word i
  | none => index

namespace Segment

variable {memory : Memory} {scope : Scope} {segment : Segment} {index cell register : Word}

theorem word?_of_base (h : segment.base? = some register) :
    segment.word? memory index cell =
      some (((memory.get register).toNat + index.toNat) % ramSize) := by
  cases segment <;> cases h <;> rfl

theorem lt_of_slot {base size : Word} {place : Place}
    (h : slot segment base size index = .ok place) : index.toNat < size.toNat := by
  rw [slot] at h
  split at h
  · next hIndex => exact UInt16.lt_iff_toNat_lt.mp hIndex
  · cases h

theorem toNat_slot {base size : Word} {place : Place}
    (h : slot segment base size index = .ok place) (hSize : base.toNat + size.toNat ≤ ramSize) :
    (base + index).toNat = base.toNat + index.toNat ∧ (base + index).toNat < ramSize := by
  have hLt := lt_of_slot h
  have hAddress : (base + index).toNat = base.toNat + index.toNat := by
    unfold ramSize at hSize
    rw [UInt16.toNat_add]
    omega
  exact ⟨hAddress, by omega⟩

theorem fixed_of_place (memory : Memory) {place : Place}
    (hPlace : segment.place scope index = .ok place)
    (hBase : segment.base? = none) (hCell : segment = static → cell.toNat < ramSize) :
    segment = constant ∨ ∃ address, segment.fixed? index cell = some address ∧
      segment.word? memory index cell = some address.toNat ∧ address.toNat < ramSize := by
  cases segment with
  | constant => exact Or.inl rfl
  | static => exact Or.inr ⟨cell, rfl, rfl, hCell rfl⟩
  | pointer =>
    obtain ⟨hAddress, hLt⟩ := toNat_slot hPlace (by decide)
    exact Or.inr ⟨3 + index, rfl, congrArg some hAddress.symm, hLt⟩
  | temp =>
    obtain ⟨hAddress, hLt⟩ := toNat_slot hPlace (by decide)
    exact Or.inr ⟨5 + index, rfl, congrArg some hAddress.symm, hLt⟩
  | _ => cases hBase

theorem word?_lt {place : Place} (hPlace : segment.place scope index = .ok place)
    (hCell : segment = static → cell.toNat < ramSize) {t : Nat}
    (ht : segment.word? memory index cell = some t) : t < ramSize := by
  cases hBase : segment.base? with
  | some register =>
    rw [word?_of_base hBase] at ht
    rw [← Option.some.inj ht]
    exact Nat.mod_lt _ (by decide)
  | none =>
    rcases fixed_of_place memory hPlace hBase hCell with rfl | ⟨address, -, hWord, hLt⟩
    · cases ht
    · rw [hWord] at ht
      exact Option.some.inj ht ▸ hLt

/-- A place that stays where it is lies apart from `SP` and the scratch register of `pop`. -/
theorem word?_apart {place : Place} (hPlace : segment.place scope index = .ok place)
    (hBase : segment.base? = none) (hCell : segment = static → 16 ≤ cell.toNat) {t : Nat}
    (ht : segment.word? memory index cell = some t) : t ≠ 0 ∧ t ≠ 13 := by
  cases segment with
  | constant => cases ht
  | static =>
    have hLow := hCell rfl
    obtain rfl := Option.some.inj ht
    omega
  | pointer =>
    have hIndex : index.toNat < 2 := lt_of_slot hPlace
    obtain rfl := Option.some.inj ht
    omega
  | temp =>
    have hIndex : index.toNat < 8 := lt_of_slot hPlace
    obtain rfl := Option.some.inj ht
    omega
  | _ => cases hBase

/-! ### What is accepted -/

theorem place_of_read {code : Code} (h : segment.read scope index = .ok code) :
    ∃ place, segment.place scope index = .ok place := by
  cases hPlace : segment.place scope index with
  | ok place => exact ⟨place, rfl⟩
  | error fault =>
    rw [read_eq_error_iff.mpr hPlace] at h
    cases h

theorem place_of_target {found : Target × Code} (h : segment.target scope index = .ok found) :
    segment ≠ constant ∧ ∃ place, segment.place scope index = .ok place := by
  have hSegment : segment ≠ constant := by
    rintro rfl
    cases h
  refine ⟨hSegment, ?_⟩
  cases hPlace : segment.place scope index with
  | ok place => exact ⟨place, rfl⟩
  | error fault =>
    rw [(target_eq_error_iff hSegment).mpr hPlace] at h
    cases h

end Segment

/-! ### The effects, word by word -/

namespace Memory

variable {memory : Memory} {address value : Word} {i : Nat}

theorem word_storePopped (memory : Memory) (address : Word) {p : Nat}
    (hSp : (memory.get sp).toNat = p + 1) (hLow : 0 < p)
    (hHigh : p < ramSize) (hi : i < ramSize) :
    (memory.pop.2.set address memory.pop.1).word i =
      if i = address.toNat % ramSize then memory.word p
      else if i = 0 then memory.get sp - 1 else memory.word i := by
  rw [pop_eq hSp (by omega) hHigh, word_set_mod hi, word_set (by decide) hi, Nat.add_sub_cancel]
  rfl

/-- A sum wraps at twice the size of memory, so it means the same word as if it did not. -/
theorem toNat_add_mod_ramSize (base offset : Word) :
    (base + offset).toNat % ramSize = (base.toNat + offset.toNat) % ramSize := by
  rw [UInt16.toNat_add]
  unfold ramSize
  omega

section Place

variable {scope : Scope} {segment : Segment} {index cell : Word} {place : Place}
  (hPlace : segment.place scope index = .ok place)
  (hCell : segment = .static → cell.toNat < ramSize)

include hPlace hCell

/-- **A push takes the value of the place.** -/
theorem read_eq_value : memory.read segment index cell = segment.value memory index cell := by
  rw [read, Segment.value]
  cases hBase : segment.base? with
  | some register =>
    rw [Segment.word?_of_base hBase, ← toNat_add_mod_ramSize]
    exact get_eq_word_mod memory _
  | none =>
    rcases Segment.fixed_of_place memory hPlace hBase hCell with
      rfl | ⟨address, hFixed, hWord, -⟩
    · rfl
    · rw [hFixed, hWord]
      exact get_eq_word memory address

/-- **A pop stores into the word of the place**, and touches no other word but that of `SP` and its
scratch register. -/
theorem word_popInto {p t : Nat} (hSp : (memory.get sp).toNat = p + 1) (hLow : 16 ≤ p)
    (hHigh : p < ramSize) (ht : segment.word? memory index cell = some t) (hi : i < ramSize)
    (hScratch : i ≠ 13) :
    (memory.popInto segment index cell).word i =
      if i = t then memory.word p else if i = 0 then memory.get sp - 1 else memory.word i := by
  rw [popInto]
  cases hBase : segment.base? with
  | some register =>
    let staged := memory.set target (memory.get register + index)
    have hStaged : ∀ {j}, j < ramSize → j ≠ 13 → staged.word j = memory.word j := by
      intro j hj hOther
      rw [word_set (by decide) hj]
      exact if_neg hOther
    have hTop : staged.get sp = memory.get sp := get_set_of_ne (by decide) _ _
    have hMod : (memory.get register + index).toNat % ramSize = t := by
      rw [Segment.word?_of_base hBase] at ht
      rw [← Option.some.inj ht, toNat_add_mod_ramSize]
    have hWord := word_storePopped staged (memory.get register + index)
      (hTop ▸ hSp) (by omega) hHigh hi
    rw [hMod, hTop, hStaged hHigh (by omega), hStaged hi hScratch] at hWord
    exact hWord
  | none =>
    rcases Segment.fixed_of_place memory hPlace hBase hCell with
      rfl | ⟨address, hFixed, hAddress, hLt⟩
    · cases ht
    · rw [hAddress] at ht
      obtain rfl := Option.some.inj ht
      have hWord := word_storePopped memory address hSp (by omega) hHigh hi
      rw [Nat.mod_eq_of_lt hLt] at hWord
      rw [hFixed]
      exact hWord

end Place

end Memory

/-- A value has come into a word of memory.  Beside it, only the word above the stack and the
scratch register of `pop` may be others than before. -/
structure Moved (old final : Memory) (t : Nat) (value : Word) : Prop where
  sp_eq : final.get sp = old.get sp
  word_eq : final.word t = value
  frame : ∀ i < ramSize, i ≠ t → i ≠ (old.get sp).toNat → i ≠ 13 → final.word i = old.word i

/-- The places of segments are where they were when a value is put on the stack. -/
theorem Segment.word?_pushUnder {memory : Memory} {segment : Segment} {index cell value : Word}
    (hLow : 16 ≤ (memory.get sp).toNat) (hHigh : (memory.get sp).toNat < ramSize) :
    segment.word? (memory.pushUnder value) index cell = segment.word? memory index cell := by
  have hRegister := fun register =>
    @Memory.get_pushUnder_register memory register value hLow hHigh
  cases hBase : segment.base? with
  | some register =>
    have hMem : 0 < register.toNat ∧ register.toNat < 16 := by
      cases segment <;> cases hBase <;> decide
    rw [word?_of_base hBase, word?_of_base hBase, hRegister register hMem]
  | none => cases segment <;> first | rfl | cases hBase

theorem Moved.of_popInto {old : Memory} {scope : Scope} {segment : Segment} {index cell : Word}
    {place : Place} (hPlace : segment.place scope index = .ok place)
    (hCell : segment = .static → cell.toNat < ramSize) {t : Nat} (value : Word)
    (hLow : 16 ≤ (old.get sp).toNat) (hHigh : (old.get sp).toNat < ramSize)
    (ht : segment.word? old index cell = some t) (hNotSp : t ≠ 0) (hNotScratch : t ≠ 13) :
    Moved old ((old.pushUnder value).popInto segment index cell) t value := by
  have hSp := Memory.toNat_get_sp_pushUnder rfl (by omega) hHigh value
  have hPushed := fun {i} => Memory.word_pushUnder (i := i) rfl hHigh
  have hWord := fun {i} => Memory.word_popInto (i := i) hPlace hCell hSp hLow hHigh
    ((Segment.word?_pushUnder hLow hHigh).trans ht)
  have hBack : (old.pushUnder value).get sp - 1 = old.get sp := by
    have hRaised : (old.pushUnder value).get sp = old.get sp + 1 := by
      have hZero := hPushed (i := 0) (by decide) value
      rw [if_neg (by omega), if_pos rfl] at hZero
      exact hZero
    rw [hRaised, UInt16.add_sub_cancel]
  constructor
  · have hZero := hWord (i := 0) (by decide) (by decide)
    rw [if_neg hNotSp.symm, if_pos rfl, hBack] at hZero
    exact hZero
  · rw [hWord (Segment.word?_lt hPlace hCell ht) hNotScratch, if_pos rfl, hPushed hHigh value,
      if_pos rfl]
  · intro i hi hOther hSlot hScratch
    rw [hWord hi hScratch, if_neg hOther, hBack]
    split
    · next hZero =>
      rw [hZero]
      rfl
    · next hZero => rw [hPushed hi value, if_neg hSlot, if_neg hZero]

/-! ### The program -/

theorem size_pushCode_le {scope : Scope} {segment : Segment} {index : Word} {code : Code}
    (h : pushCode scope segment index = .ok code) : Code.size code ≤ 9 := by
  obtain ⟨place, -, rfl⟩ := pushCode_eq_ok h
  cases place <;> exact Nat.le_of_ble_eq_true rfl

theorem size_popCode_le {scope : Scope} {segment : Segment} {index : Word} {code : Code}
    (h : popCode scope segment index = .ok code) : Code.size code ≤ 12 := by
  obtain ⟨place, -, target, find, hTarget, rfl⟩ := popCode_eq_ok h
  cases place <;> cases hTarget <;> exact Nat.le_of_ble_eq_true rfl

theorem Segment.pushCode_of_read {scope : Scope} {segment : Segment} {index : Word} {code : Code}
    (h : segment.read scope index = .ok code) :
    pushCode scope segment index = .ok (code ++ pushD) := by
  rw [pushCode, h]
  rfl

theorem Segment.popCode_of_target {scope : Scope} {segment : Segment} {index : Word}
    {found : Target × Code} (h : segment.target scope index = .ok found) :
    popCode scope segment index = .ok (found.2 ++ found.1.store) := by
  rw [popCode, h]
  rfl

/-- A file that moves a value. -/
def movingPart (name : String) (first second : Position) (source target : Segment) (i j : Word) :
    Part :=
  ⟨name, [⟨first, .push source i⟩, ⟨second, .pop target j⟩]⟩

section Program

variable {comments : Bool} {name : String} {first second : Position} {source target : Segment}
  {i j : Word} {push pop : Code} {image : Image} {cpu : Cpu}
  (hPush : pushCode (Scope.inFile {} name) source i = .ok push)
  (hPop : popCode (Scope.inFile {} name) target j = .ok pop)

include hPush

theorem sites_movingPart :
    sites ⟨false, comments⟩ [movingPart name first second source target i j] =
      [⟨Scope.inFile {} name, .push source i, 0⟩,
        ⟨Scope.inFile {} name, .pop target j, Code.size push⟩] := by
  let scope : Scope := Scope.inFile {} name
  show [⟨scope, .push source i, 0⟩, Site.mk (scope.after (.push source i)) (.pop target j)
    (0 + Code.size ((Command.push source i).emitted scope))] = _
  rw [Scope.after_push, Command.emitted_push hPush, Nat.zero_add]

theorem labels_movingPart : Code.labels
    (programCode ⟨false, comments⟩ [movingPart name first second source target i j]) = [] := by
  rw [labels_programCode, sites_movingPart hPush]
  simp only [List.flatMap_cons, List.flatMap_nil, Site.labels_code]
  rfl

theorem allocates_movingPart {machine : Machine}
    (hLoad : Machine.load (programCode ⟨false, comments⟩
      [movingPart name first second source target i j]) = .ok machine)
    {command : Command} (hCommand : command = .push source i ∨ command = .pop target j)
    {index : Word} (hStatic : command.static? = some index) :
    ∃ k, machine.Allocates
      (programCode ⟨false, comments⟩ [movingPart name first second source target i j])
      ((Scope.inFile {} name).variableSymbol index) k := by
  have hSites := @sites_movingPart comments name first second source target i j push hPush
  obtain ⟨site, hSite, hScope, rfl⟩ : ∃ site ∈
      sites ⟨false, comments⟩ [movingPart name first second source target i j],
      site.scope = Scope.inFile {} name ∧ site.command = command := by
    rw [hSites]
    rcases hCommand with rfl | rfl
    · exact ⟨_, List.mem_cons_self, rfl, rfl⟩
    · exact ⟨_, List.mem_cons_of_mem _ List.mem_cons_self, rfl, rfl⟩
  refine allocates_static hLoad hSite ?_ ?_
  · rw [Site.static?_eq, hStatic, hScope]
    rfl
  · rw [labels_movingPart hPush]
    exact List.not_mem_nil

include hPop

theorem translate_movingPart :
    translateParts ⟨false, comments⟩ [movingPart name first second source target i j] =
      .ok (programCode ⟨false, comments⟩ [movingPart name first second source target i j]) := by
  refine translateParts_isOk ?_ (by rw [labels_movingPart hPush]; exact List.nodup_nil)
  let scope : Scope := Scope.inFile {} name
  show ((Command.push source i).code scope).isOk &&
    (((Command.pop target j).code (scope.after (.push source i))).isOk && true)
  rw [Scope.after_push, Command.code, Command.code, hPush, hPop]
  rfl

theorem size_movingPart :
    Code.size (programCode ⟨false, comments⟩ [movingPart name first second source target i j]) =
      Code.size push + Code.size pop := by
  let scope : Scope := Scope.inFile {} name
  have hCode :
      programCode ⟨false, comments⟩ [movingPart name first second source target i j] =
        (Input.statement ⟨first, .push source i⟩).code comments scope ++
          ((Input.statement ⟨second, .pop target j⟩).code comments
            (scope.after (.push source i)) ++ []) := rfl
  rw [hCode, Code.size_append, Code.size_append, Input.size_code, Input.size_code,
    Scope.after_push, Command.emitted_push hPush, Command.emitted_pop hPop]
  rfl

/-- The program comes to its end, where the value has been pushed and popped. -/
theorem arrivesAt_movingPart
    (hImage : Image.load (programCode ⟨false, comments⟩
      [movingPart name first second source target i j]) = .ok image) (hPc : cpu.pc = 0) :
    ∃ n, Cpu.ArrivesAt image.rom n cpu image.rom.size
      ((cpu.memory.pushUnder (cpu.memory.read source i
        (image.address ((Scope.inFile {} name).variableSymbol i)))).popInto target j
        (image.address ((Scope.inFile {} name).variableSymbol j))) := by
  have hFixed := Image.fixedAddresses hImage
  have hSites := @sites_movingPart comments name first second source target i j push hPush
  have hFirst := Code.at_site (by rw [hSites]; exact List.mem_cons_self)
  have hSecond := Code.at_site
    (by rw [hSites]; exact List.mem_cons_of_mem _ List.mem_cons_self)
  rw [Site.code, Command.emitted_push hPush] at hFirst
  rw [Site.code, Command.emitted_pop hPop] at hSecond
  obtain ⟨hStraight, hPushed⟩ := run_pushCode hFixed cpu hPush
  have hArrives := Cpu.arrivesAt_straight hImage (hPc ▸ hFirst) hStraight hPushed
  rw [hPc, Nat.zero_add] at hArrives
  refine ⟨Code.size push + Code.size pop, hArrives.trans fun middle hMiddle hMemory => ?_⟩
  obtain ⟨hThrough, hPopped⟩ := run_popCode hFixed middle hPop
  have hEnd := Cpu.arrivesAt_straight hImage (hMiddle ▸ hSecond) hThrough hPopped
  rw [hMiddle, hMemory] at hEnd
  rw [Image.size_rom hImage, size_movingPart hPush hPop]
  exact hEnd

end Program

/-- The program moves the value, wherever its static variables lie. -/
theorem moved_of_load {comments : Bool} {name : String} {first second : Position}
    {source target : Segment} {i j : Word} {reading : Code} {writing : Target × Code}
    {image : Image} {part : Part} (hPart : part = movingPart name first second source target i j)
    (hReading : source.read (Scope.inFile {} name) i = .ok reading)
    (hWriting : target.target (Scope.inFile {} name) j = .ok writing)
    (hImage : Image.load (programCode ⟨false, comments⟩ [part]) = .ok image)
    {x y : Word} (hx : image.address (part.staticSymbol i) = x)
    (hy : image.address (part.staticSymbol j) = y)
    (hSource : source = .static → 16 ≤ x.toNat ∧ x.toNat < ramSize)
    (hTarget : target = .static → 16 ≤ y.toNat ∧ y.toNat < ramSize)
    {here : Machine} (hHere : here.image = image) (hPc : here.cpu.pc = 0) {old : Memory}
    (hOld : here.cpu.memory = old) (hLow : 16 ≤ (old.get sp).toNat)
    (hHigh : (old.get sp).toNat < ramSize) :
    ∃ t < ramSize, target.word? old j y = some t ∧
      ((target.base?.isSome → t ≠ 0 ∧ t ≠ 13) → ∃ n, (Machine.step^[n] here).isFinished = true ∧
        Moved old (Machine.step^[n] here).cpu.memory t (source.value old i x)) := by
  subst hPart
  obtain ⟨place, hSourcePlace⟩ := Segment.place_of_read hReading
  obtain ⟨hWritable, place', hTargetPlace⟩ := Segment.place_of_target hWriting
  have hTargetCell := fun hStatic => (hTarget hStatic).2
  obtain ⟨t, ht⟩ : ∃ t, target.word? old j y = some t := by
    cases target with
    | constant => exact absurd rfl hWritable
    | _ => exact ⟨_, rfl⟩
  refine ⟨t, Segment.word?_lt hTargetPlace hTargetCell ht, ht, fun hIndirect => ?_⟩
  obtain ⟨hNotSp, hNotScratch⟩ : t ≠ 0 ∧ t ≠ 13 := by
    cases hBase : target.base? with
    | some register => exact hIndirect (by rw [hBase]; rfl)
    | none => exact Segment.word?_apart hTargetPlace hBase (fun hStatic => (hTarget hStatic).1) ht
  obtain ⟨n, hArrives⟩ := arrivesAt_movingPart (Segment.pushCode_of_read hReading)
    (Segment.popCode_of_target hWriting) hImage hPc
  rw [← hHere] at hArrives
  obtain ⟨hEnd, hMemory⟩ := Machine.arrives hArrives
  refine ⟨n, ?_, ?_⟩
  · rw [Machine.isFinished, Cpu.isFinished, hEnd, Machine.image_iterate_step]
    exact decide_eq_true (Nat.le_refl _)
  · have hRead : old.read source i x = source.value old i x :=
      Memory.read_eq_value hSourcePlace fun hStatic => (hSource hStatic).2
    have hXY : here.image.address ((Scope.inFile {} name).variableSymbol i) = x ∧
        here.image.address ((Scope.inFile {} name).variableSymbol j) = y := by
      rw [hHere]
      exact ⟨hx, hy⟩
    rw [hMemory, hOld, hXY.1, hXY.2, hRead]
    exact Moved.of_popInto hTargetPlace hTargetCell _ hLow hHigh ht hNotSp hNotScratch

/-- **`push` and `pop` move a value and nothing else.**  Reading and writing accept the same places,
but for a `constant`, which can only be read.  From the start of a program that consists of a push
and a pop, with `SP` above the registers and within memory, the machine comes to its end with the
value of the source in the word of the target.  `SP` is as it was, and no other word has changed but
the one that `SP` points at and the scratch register of `pop`.  A target that counts from a base
register must not be one of these two registers. -/
theorem push_pop_moves :
    (∀ scope index, (∃ code, Segment.constant.read scope index = .ok code) ∧
      Segment.constant.target scope index = .error (.readOnly .constant)) ∧
    (∀ (scope : Scope) (segment : Segment) (index : Word) (fault : SegmentFault),
      segment ≠ .constant →
        (segment.read scope index = .error fault ↔ segment.target scope index = .error fault)) ∧
    ∀ (comments : Bool) (name : String) (first second : Position) (source target : Segment)
      (i j : Word) (reading : Code) (writing : Target × Code),
      source.read (Scope.inFile {} name) i = .ok reading →
      target.target (Scope.inFile {} name) j = .ok writing →
      let part := movingPart name first second source target i j
      ∃ code machine, translateParts ⟨false, comments⟩ [part] = .ok code ∧
        Machine.load code = .ok machine ∧
        (source = .static → ∃ k, machine.Allocates code (part.staticSymbol i) k) ∧
        (target = .static → ∃ k, machine.Allocates code (part.staticSymbol j) k) ∧
        ∀ here : Machine, here.image = machine.image → here.cpu.pc = 0 →
          ∀ old, here.cpu.memory = old → 16 ≤ (old.get sp).toNat → (old.get sp).toNat < ramSize →
            ∃ t < ramSize,
              target.word? old j (machine.image.address (part.staticSymbol j)) = some t ∧
              ((target.base?.isSome → t ≠ 0 ∧ t ≠ 13) →
                ∃ n, (Machine.step^[n] here).isFinished = true ∧
                  Moved old (Machine.step^[n] here).cpu.memory t
                    (source.value old i (machine.image.address (part.staticSymbol i)))) := by
  refine ⟨fun scope index => ⟨⟨_, rfl⟩, rfl⟩, ?_, ?_⟩
  · intro scope segment index fault hSegment
    rw [Segment.read_eq_error_iff, Segment.target_eq_error_iff hSegment]
  · intro comments name first second source target i j reading writing hReading hWriting part
    have hPush := Segment.pushCode_of_read hReading
    have hPop := Segment.popCode_of_target hWriting
    have hSize : variableBase + Code.size (programCode ⟨false, comments⟩ [part]) ≤ ramSize := by
      have hPushSize := size_pushCode_le hPush
      have hPopSize := size_popCode_le hPop
      rw [size_movingPart hPush hPop]
      unfold variableBase ramSize
      omega
    obtain ⟨image, hImage⟩ := Image.load_isOk_of_small (labels_movingPart hPush) hSize
    have hLoad := Machine.load_of_image hImage
    let machine : Machine := ⟨image, {}⟩
    have hSource : source = .static → ∃ k, machine.Allocates
        (programCode ⟨false, comments⟩ [part]) (part.staticSymbol i) k := by
      rintro rfl
      exact allocates_movingPart hPush hLoad (Or.inl rfl) rfl
    have hTarget : target = .static → ∃ k, machine.Allocates
        (programCode ⟨false, comments⟩ [part]) (part.staticSymbol j) k := by
      rintro rfl
      exact allocates_movingPart hPush hLoad (Or.inr rfl) rfl
    refine ⟨_, machine, translate_movingPart hPush hPop, hLoad, hSource, hTarget, ?_⟩
    intro here hHere hPc old hOld hLow hHigh
    refine moved_of_load rfl hReading hWriting hImage rfl rfl ?_ ?_ hHere hPc hOld hLow hHigh
    · intro hStatic
      obtain ⟨k, hk⟩ := hSource hStatic
      exact hk.address_bounds
    · intro hStatic
      obtain ⟨k, hk⟩ := hTarget hStatic
      exact hk.address_bounds

/-- A number that is popped past the end of memory comes into the register `ARG`. -/
theorem moved_past_end :
    ∃ code machine here n, translateParts ⟨false, true⟩
        [movingPart "Main" ⟨"Main.vm", 1⟩ ⟨"Main.vm", 2⟩ .constant .locals 7 3] = .ok code ∧
      Machine.load code = .ok machine ∧ here.image = machine.image ∧ here.cpu.pc = 0 ∧
      here.cpu.memory = (Memory.zeros.set sp 256).set lcl 32767 ∧
      (Machine.step^[n] here).isFinished = true ∧
      (Machine.step^[n] here).cpu.memory.get sp = 256 ∧
      (Machine.step^[n] here).cpu.memory.get arg = 7 := by
  obtain ⟨code, machine, hTranslate, hLoad, -, -, hRun⟩ := push_pop_moves.2.2 true "Main"
    ⟨"Main.vm", 1⟩ ⟨"Main.vm", 2⟩ .constant .locals 7 3 _ _ rfl rfl
  obtain ⟨old, hOld⟩ : ∃ old, old = (Memory.zeros.set sp 256).set lcl 32767 := ⟨_, rfl⟩
  have hSp : old.get sp = 256 := by
    rw [hOld, Memory.get_set_of_ne (by decide), Memory.get_set_self]
  have hLcl : old.get lcl = 32767 := by rw [hOld, Memory.get_set_self]
  let here : Machine := ⟨machine.image, { memory := old }⟩
  obtain ⟨t, -, ht, hMoves⟩ := hRun here rfl rfl old rfl (by rw [hSp]; decide)
    (by rw [hSp]; decide)
  have hWord : t = 2 := by
    rw [Segment.word?, hLcl] at ht
    exact (Option.some.inj ht).symm
  subst hWord
  obtain ⟨n, hEnd, hMoved⟩ := hMoves fun _ => ⟨by decide, by decide⟩
  exact ⟨code, machine, here, n, hTranslate, hLoad, rfl, rfl, hOld, hEnd, hMoved.sp_eq.trans hSp,
    hMoved.word_eq⟩

end HackVm
