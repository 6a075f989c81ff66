import HackVm.Proofs.Effect

/-!
# The layout of frames

What a call, the entry of a function and a return make of memory, word by word, when the stack stays
between the registers and the end of memory.  Words are counted from the start of memory here
(`Memory.word`), since no address wraps.

* `Memory.word_pushes_of_le`: values that are put on the stack lie there in their order.
* `Memory.word_call`, `Memory.word_enter`: the frame of the caller, and the locals above it.
* `Memory.word_ret`: the result, and the registers that come back from the frame, one after the
  other (`Memory.KeepsFrame.restore`).
-/

namespace HackVm

namespace Memory

open Register

/-- The word a number of words from the start of memory. -/
def word (memory : Memory) (i : Nat) : Word :=
  memory.get (UInt16.ofNat i)

theorem get_eq_word (memory : Memory) (address : Word) :
    memory.get address = memory.word address.toNat := by
  rw [word, UInt16.ofNat_toNat]

/-- An address past the end of memory means a word from its start on. -/
theorem get_eq_word_mod (memory : Memory) (address : Word) :
    memory.get address = memory.word (address.toNat % ramSize) := by
  have hCell : cell (UInt16.ofNat (address.toNat % ramSize)) = cell address := by
    rw [Fin.ext_iff]
    simp only [cell, ramSize, UInt16.toNat_ofNat']
    omega
  simp only [word, get, hCell]

theorem word_set_mod {memory : Memory} {address value : Word} {i : Nat} (hi : i < ramSize) :
    (memory.set address value).word i =
      if i = address.toNat % ramSize then value else memory.word i := by
  have hCell : cell address = cell (UInt16.ofNat i) ↔ i = address.toNat % ramSize := by
    unfold ramSize at hi
    rw [Fin.ext_iff]
    simp only [cell, ramSize, UInt16.toNat_ofNat']
    omega
  rw [word, get_set]
  simp only [hCell]
  rfl

theorem word_set {memory : Memory} {address value : Word} {i : Nat}
    (hAddress : address.toNat < ramSize) (hi : i < ramSize) :
    (memory.set address value).word i = if i = address.toNat then value else memory.word i := by
  rw [word_set_mod hi, Nat.mod_eq_of_lt hAddress]

/-! ### Values on the stack -/

theorem word_pushUnder {memory : Memory} {p i : Nat} (hSp : (memory.get sp).toNat = p)
    (hHigh : p < ramSize) (hi : i < ramSize) (value : Word) :
    (memory.pushUnder value).word i =
      if i = p then value else if i = 0 then memory.get sp + 1 else memory.word i := by
  have hTop : (memory.get sp).toNat < ramSize := hSp ▸ hHigh
  rw [pushUnder, word_set hTop hi, hSp, word_set (by decide) hi]
  rfl

theorem toNat_get_sp_pushUnder {memory : Memory} {p : Nat} (hSp : (memory.get sp).toNat = p)
    (hLow : 0 < p) (hHigh : p < ramSize) (value : Word) :
    ((memory.pushUnder value).get sp).toNat = p + 1 := by
  have hZero := word_pushUnder hSp hHigh (i := 0) (by decide) value
  rw [if_neg (by omega), if_pos rfl] at hZero
  have hGet : (memory.pushUnder value).get sp = memory.get sp + 1 := hZero
  rw [hGet, UInt16.toNat_add, hSp, UInt16.toNat_one]
  unfold ramSize at hHigh
  omega

theorem toNat_get_sp_pushes (values : List Word) : ∀ {memory : Memory} {p : Nat},
    (memory.get sp).toNat = p → 0 < p → p + values.length ≤ ramSize →
      ((values.foldl pushUnder memory).get sp).toNat = p + values.length := by
  induction values with
  | nil => intro memory p hSp _ _; exact hSp
  | cons value values ih =>
    intro memory p hSp hLow hHigh
    rw [List.length_cons] at hHigh ⊢
    have hNext := toNat_get_sp_pushUnder hSp hLow (by omega) value
    rw [List.foldl_cons, ih hNext (Nat.succ_pos p) (by omega)]
    omega

/-- Below the stack nothing changes but `SP`. -/
theorem word_pushes_of_lt (values : List Word) : ∀ {memory : Memory} {p i : Nat},
    (memory.get sp).toNat = p → p + values.length ≤ ramSize → 0 < i → i < p →
      (values.foldl pushUnder memory).word i = memory.word i := by
  induction values with
  | nil => intro memory p i _ _ _ _; rfl
  | cons value values ih =>
    intro memory p i hSp hHigh hi hLt
    rw [List.length_cons] at hHigh
    have hLow : 0 < p := by omega
    have hNext := toNat_get_sp_pushUnder hSp hLow (by omega) value
    rw [List.foldl_cons, ih hNext (by omega) hi (by omega),
      word_pushUnder hSp (by omega) (by omega), if_neg (by omega), if_neg (by omega)]

/-- The values lie on the stack in their order, and above them nothing changes. -/
theorem word_pushes_of_le (values : List Word) : ∀ {memory : Memory} {p i : Nat},
    (memory.get sp).toNat = p → 0 < p → p + values.length ≤ ramSize → i < ramSize → p ≤ i →
      (values.foldl pushUnder memory).word i = values[i - p]?.getD (memory.word i) := by
  induction values with
  | nil => intro memory p i _ _ _ _ _; rfl
  | cons value values ih =>
    intro memory p i hSp hLow hHigh hi hLe
    rw [List.length_cons] at hHigh
    have hNext := toNat_get_sp_pushUnder hSp hLow (by omega) value
    have hWord := word_pushUnder hSp (by omega) hi value
    rw [List.foldl_cons]
    rcases Nat.eq_or_lt_of_le hLe with rfl | hLt
    · rw [word_pushes_of_lt values hNext (by omega) hLow (by omega), hWord, if_pos rfl,
        Nat.sub_self]
      rfl
    · rw [if_neg (by omega), if_neg (by omega)] at hWord
      obtain ⟨j, rfl⟩ : ∃ j, i = p + 1 + j := ⟨i - (p + 1), by omega⟩
      rw [ih hNext (Nat.succ_pos p) (by omega) hi (by omega), hWord, Nat.add_sub_cancel_left,
        Nat.add_assoc, Nat.add_sub_cancel_left, Nat.add_comm 1 j, List.getElem?_cons_succ]

/-! ### Calls -/

/-- What a call saves: the address to return to, and the registers of the caller. -/
def frameWords (memory : Memory) (address : Word) : List Word :=
  [address, memory.get lcl, memory.get arg, memory.get this, memory.get that]

/-- A register keeps its word when a value is put on a stack above the registers. -/
theorem get_pushUnder_register {memory : Memory} {register : Word} (value : Word)
    (hLow : 16 ≤ (memory.get sp).toNat) (hHigh : (memory.get sp).toNat < ramSize)
    (hRegister : 0 < register.toNat ∧ register.toNat < 16) :
    (memory.pushUnder value).get register = memory.get register := by
  rw [get_eq_word, get_eq_word memory, word_pushUnder rfl hHigh (by unfold ramSize; omega),
    if_neg (by omega), if_neg (by omega)]

/-- The registers are saved as they were before the first of them was. -/
theorem foldl_save_eq {registers : List Word} : ∀ {memory : Memory},
    (∀ register ∈ registers, 0 < register.toNat ∧ register.toNat < 16) →
      16 ≤ (memory.get sp).toNat → (memory.get sp).toNat + registers.length ≤ ramSize →
      registers.foldl (save pushUnder) memory =
        (registers.map memory.get).foldl pushUnder memory := by
  induction registers with
  | nil => intro memory _ _ _; rfl
  | cons register rest ih =>
    intro memory hRegisters hLow hHigh
    rw [List.length_cons] at hHigh
    have hNext := toNat_get_sp_pushUnder (p := (memory.get sp).toNat) rfl (by omega) (by omega)
      (memory.get register)
    have hKept : rest.map (memory.pushUnder (memory.get register)).get = rest.map memory.get := by
      apply List.map_congr_left
      intro other hOther
      exact get_pushUnder_register _ hLow (by omega)
        (hRegisters other (List.mem_cons_of_mem _ hOther))
    have hRest : (rest.foldl (save pushUnder) (memory.pushUnder (memory.get register))) =
        (rest.map (memory.pushUnder (memory.get register)).get).foldl pushUnder
          (memory.pushUnder (memory.get register)) :=
      ih (fun other hOther => hRegisters other (List.mem_cons_of_mem _ hOther)) (by omega)
        (by omega)
    rw [List.foldl_cons, save, List.map_cons, List.foldl_cons, hRest, hKept]

section Call

variable {memory : Memory} {p : Nat} (hSp : (memory.get sp).toNat = p) (hLow : 16 ≤ p)
  (hHigh : p + 5 ≤ ramSize)

include hSp hLow hHigh

theorem saveFrame_eq (address : Word) :
    memory.saveFrame pushUnder address = (memory.frameWords address).foldl pushUnder memory := by
  have hNext := toNat_get_sp_pushUnder hSp (by omega) (by omega) address
  have hRegisters : ∀ register ∈ [lcl, arg, this, that],
      0 < register.toNat ∧ register.toNat < 16 := by
    intro register hRegister
    simp only [List.mem_cons, List.not_mem_nil, or_false] at hRegister
    rcases hRegister with rfl | rfl | rfl | rfl <;> decide
  have hKept : [lcl, arg, this, that].map (memory.pushUnder address).get =
      [lcl, arg, this, that].map memory.get := by
    apply List.map_congr_left
    intro register hRegister
    exact get_pushUnder_register address (by omega) (by omega) (hRegisters register hRegister)
  have hWords : memory.frameWords address = address :: [lcl, arg, this, that].map memory.get := rfl
  rw [saveFrame, foldl_save_eq hRegisters (by omega) (by rw [hNext]; exact hHigh), hKept, hWords,
    List.foldl_cons]

theorem toNat_get_sp_saveFrame (address : Word) :
    ((memory.saveFrame pushUnder address).get sp).toNat = p + 5 := by
  rw [saveFrame_eq hSp hLow hHigh]
  exact toNat_get_sp_pushes _ hSp (by omega) hHigh

theorem toNat_get_sp_call (address arguments : Word) :
    ((memory.call pushUnder address arguments).get sp).toNat = p + 5 := by
  rw [call, get_set, if_neg (by decide), get_set, if_neg (by decide)]
  exact toNat_get_sp_saveFrame hSp hLow hHigh address

/-- **A call** sets `ARG` and `LCL`, and leaves the frame on the stack. -/
theorem word_call (address arguments : Word) {i : Nat} (hi : i < ramSize) (hPos : 0 < i) :
    (memory.call pushUnder address arguments).word i =
      if i = 1 then memory.get sp + 5
      else if i = 2 then memory.get sp - arguments
      else if p ≤ i then (memory.frameWords address)[i - p]?.getD (memory.word i)
      else memory.word i := by
  have hSaved : (memory.saveFrame pushUnder address).get sp = memory.get sp + 5 := by
    apply UInt16.toNat_inj.mp
    rw [toNat_get_sp_saveFrame hSp hLow hHigh, UInt16.toNat_add, hSp]
    unfold ramSize at hHigh
    show p + 5 = (p + 5) % 2 ^ 16
    omega
  have hArg : memory.get sp + 5 - 5 - arguments = memory.get sp - arguments := by
    rw [UInt16.add_sub_cancel]
  have hLcl : lcl.toNat = 1 := rfl
  have hTwo : arg.toNat = 2 := rfl
  have hFramed : ∀ (saved : Memory) (value : Word),
      (saved.set arg value).get sp = saved.get sp := by
    intro saved value
    rw [get_set, if_neg (by decide)]
  rw [call, word_set (by decide) hi, word_set (by decide) hi, hFramed, hSaved, hArg, hLcl, hTwo]
  by_cases hLe : p ≤ i
  · rw [if_pos hLe, saveFrame_eq hSp hLow hHigh,
      word_pushes_of_le (memory.frameWords address) hSp (by omega) hHigh hi hLe]
  · rw [if_neg hLe, saveFrame_eq hSp hLow hHigh,
      word_pushes_of_lt (memory.frameWords address) hSp hHigh hPos (by omega)]

end Call

/-! ### Locals -/

section Enter

variable {memory : Memory} {p : Nat} {locals : Word} (hSp : (memory.get sp).toNat = p)
  (hLow : 0 < p) (hHigh : p + locals.toNat ≤ ramSize)

include hSp hLow hHigh

theorem toNat_get_sp_enter :
    ((memory.enter pushUnder locals).get sp).toNat = p + locals.toNat := by
  have hLength : (List.replicate locals.toNat (0 : Word)).length = locals.toNat :=
    List.length_replicate
  rw [enter, toNat_get_sp_pushes _ hSp hLow (by rwa [hLength]), hLength]

/-- **The entry of a function** puts its locals on the stack and changes nothing below. -/
theorem word_enter {i : Nat} (hi : i < p + locals.toNat) (hPos : 0 < i) :
    (memory.enter pushUnder locals).word i = if p ≤ i then 0 else memory.word i := by
  have hLength : (List.replicate locals.toNat (0 : Word)).length = locals.toNat :=
    List.length_replicate
  have hHigh' : p + (List.replicate locals.toNat (0 : Word)).length ≤ ramSize := by rwa [hLength]
  by_cases hLe : p ≤ i
  · rw [enter, word_pushes_of_le (List.replicate _ 0) hSp hLow hHigh' (by omega) hLe,
      List.getElem?_replicate_of_lt (by omega), if_pos hLe]
    rfl
  · rw [enter, word_pushes_of_lt (List.replicate _ 0) hSp hHigh' hPos (by omega), if_neg hLe]

end Enter

/-! ### Calls of functions with locals -/

section Entered

variable {memory : Memory} {p : Nat} (address arguments : Word) {locals : Word}
  (hSp : (memory.get sp).toNat = p) (hLow : 16 ≤ p) (hHigh : p + 5 + locals.toNat ≤ ramSize)

include hSp hLow hHigh

theorem toNat_get_sp_entered :
    (((memory.call pushUnder address arguments).enter pushUnder locals).get sp).toNat =
      p + 5 + locals.toNat :=
  toNat_get_sp_enter (toNat_get_sp_call hSp hLow (by omega) address arguments) (by omega) hHigh

/-- **A function begins** with zeros in its locals, above the frame. -/
theorem word_entered {i : Nat} (hi : i < p + 5 + locals.toNat) (hPos : 0 < i) :
    ((memory.call pushUnder address arguments).enter pushUnder locals).word i =
      if p + 5 ≤ i then 0
      else if i = 1 then memory.get sp + 5
      else if i = 2 then memory.get sp - arguments
      else if p ≤ i then (memory.frameWords address)[i - p]?.getD (memory.word i)
      else memory.word i := by
  rw [word_enter (toNat_get_sp_call hSp hLow (by omega) address arguments) (by omega) hHigh hi hPos,
    word_call hSp hLow (by omega) address arguments (by omega) hPos]

/-- Between the registers and the stack a call changes nothing, nor does it change `THIS` and
`THAT`. -/
theorem word_entered_of_lt {i : Nat} (hi : i < p) (hPos : 2 < i) :
    ((memory.call pushUnder address arguments).enter pushUnder locals).word i = memory.word i := by
  rw [word_entered address arguments hSp hLow hHigh (by omega) (by omega), if_neg (by omega),
    if_neg (by omega), if_neg (by omega), if_neg (by omega)]

/-- The words of the frame. -/
theorem word_entered_frame {i : Nat} (hi : i < 5) :
    (memory.frameWords address)[i]? =
      some (((memory.call pushUnder address arguments).enter pushUnder locals).word (p + i)) := by
  have hLength : i < (memory.frameWords address).length := hi
  rw [word_entered address arguments hSp hLow hHigh (by omega) (by omega), if_neg (by omega),
    if_neg (by omega), if_neg (by omega), if_pos (by omega), Nat.add_sub_cancel_left,
    List.getElem?_eq_getElem hLength, Option.getD_some]

end Entered

/-! ### Returns -/

/-- A register gets the word at a distance below the top of the frame. -/
theorem word_restore {memory : Memory} {q d r : Nat} (hFrame : (memory.get frame).toNat = q)
    (register distance : Word) (hRegister : register.toNat = r) (hDistance : distance.toNat = d)
    (hr : r < ramSize) (hd : d ≤ q) {i : Nat} (hi : i < ramSize) :
    (memory.restore register distance).word i =
      if i = r then memory.word (q - d) else memory.word i := by
  have hFound : (memory.get frame - distance).toNat = q - d := by
    rw [UInt16.toNat_sub_of_le _ _ (UInt16.le_iff_toNat_le.mpr (by omega)), hFrame, hDistance]
  rw [restore, word_set (hRegister ▸ hr) hi, get_eq_word memory (_ - _), hFound, hRegister]

/-- While the registers come back, the frame and the words above it stay as they were. -/
structure KeepsFrame (p : Nat) (old memory : Memory) : Prop where
  top : (memory.get frame).toNat = p + 5
  above : ∀ {i}, p < i → i < ramSize → memory.word i = old.word i

theorem KeepsFrame.restore {p d r : Nat} {old memory : Memory} (h : KeepsFrame p old memory)
    (register distance : Word) (hRegister : register.toNat = r) (hDistance : distance.toNat = d)
    (hr : r < 14) (hd : 0 < d ∧ d < 5) (hLow : 16 ≤ p) (hHigh : p + 5 ≤ ramSize) :
    KeepsFrame p old (memory.restore register distance) ∧
      ∀ {i}, i < ramSize → (memory.restore register distance).word i =
        if i = r then old.word (p + 5 - d) else memory.word i := by
  have hWord : ∀ {i}, i < ramSize → (memory.restore register distance).word i =
      if i = r then old.word (p + 5 - d) else memory.word i := by
    intro i hi
    rw [word_restore h.top register distance hRegister hDistance (by omega) (by omega) hi,
      h.above (by omega) (by omega)]
  refine ⟨⟨?_, fun {i} hAbove hi => ?_⟩, hWord⟩
  · have hFrame : frame.toNat = 14 := rfl
    rw [get_eq_word, hFrame, hWord (by decide), if_neg (by omega), ← h.top, get_eq_word, hFrame]
  · rw [hWord hi, if_neg (by omega), h.above hAbove hi]

theorem toNat_sub_one {address : Word} {s : Nat} (h : address.toNat = s) (hPos : 0 < s) :
    (address - 1).toNat = s - 1 := by
  have hOne : (1 : Word) ≤ address := UInt16.le_iff_toNat_le.mpr (by rw [h]; exact hPos)
  rw [UInt16.toNat_sub_of_le _ _ hOne, h]
  rfl

theorem pop_eq {memory : Memory} {s : Nat} (hSp : (memory.get sp).toNat = s) (hPos : 1 < s)
    (hHigh : s ≤ ramSize) :
    memory.pop = (memory.word (s - 1), memory.set sp (memory.get sp - 1)) := by
  have hLowered : (memory.get sp - 1).toNat = s - 1 := toNat_sub_one hSp (by omega)
  have hTop : s - 1 ≠ sp.toNat := by
    show s - 1 ≠ 0
    omega
  rw [pop, get_set_self, get_eq_word (memory.set _ _), hLowered, word_set (by decide) (by omega),
    if_neg hTop]

/-- The result goes where `ARG` points, and `SP` above it. -/
theorem word_putResult {memory : Memory} {a s i : Nat} (hArg : (memory.get arg).toNat = a)
    (hSp : (memory.get sp).toNat = s) (hLow : 16 ≤ a) (hArgHigh : a < ramSize) (hPos : 1 < s)
    (hHigh : s ≤ ramSize) (hi : i < ramSize) :
    memory.putResult.word i =
      if i = 0 then memory.get arg + 1 else if i = a then memory.word (s - 1)
      else memory.word i := by
  have hKept : (memory.set sp (memory.get sp - 1)).get arg = memory.get arg :=
    get_set_of_ne (by decide) _ _
  have hSlot : a ≠ arg.toNat := by
    show a ≠ 2
    omega
  have hStored : ((memory.set sp (memory.get sp - 1)).set (memory.get arg)
      (memory.word (s - 1))).get arg = memory.get arg := by
    rw [get_eq_word (Memory.set _ _ _), word_set (by omega) (by decide), hArg, if_neg hSlot.symm,
      ← get_eq_word, hKept]
  have hZero : sp.toNat = 0 := rfl
  rw [putResult, pop_eq hSp hPos hHigh]
  simp only
  rw [hKept, hStored, word_set (by decide) hi, word_set (by omega) hi, hArg,
    word_set (by decide) hi, hZero]
  by_cases hi0 : i = 0
  · rw [if_pos hi0, if_pos hi0]
  · rw [if_neg hi0, if_neg hi0, if_neg hi0]

section Return

variable {memory : Memory} {p a s : Nat} (hLcl : (memory.get lcl).toNat = p + 5)
  (hArg : (memory.get arg).toNat = a) (hSp : (memory.get sp).toNat = s) (hLow : 16 ≤ a)
  (hLe : a ≤ p) (hTop : p + 5 ≤ s) (hHigh : s ≤ ramSize)

/-- What a return does before it gives the caller its registers back. -/
def resulted (memory : Memory) : Memory :=
  ((memory.set frame (memory.get lcl)).restore back 5).putResult

include hLcl hArg hSp hLow hLe hTop hHigh

theorem word_resulted {i : Nat} (hi : i < ramSize) :
    memory.resulted.word i =
      if i = 0 then memory.get arg + 1
      else if i = a then memory.word (s - 1)
      else if i = 15 then memory.word p
      else if i = 14 then memory.get lcl
      else memory.word i := by
  let framed := memory.set frame (memory.get lcl)
  have hFramed : ∀ {j}, j < ramSize →
      framed.word j = if j = 14 then memory.get lcl else memory.word j :=
    fun hj => word_set (by decide) hj
  have hFrame : (framed.get frame).toNat = p + 5 := by rw [get_set_self, hLcl]
  have hCaptured : ∀ {j}, j < ramSize → (framed.restore back 5).word j =
      if j = 15 then memory.word p else framed.word j := by
    intro j hj
    have hWord := word_restore (r := 15) (d := 5) hFrame back 5 rfl rfl (by decide) (by omega) hj
    rw [Nat.add_sub_cancel, hFramed (by omega), if_neg (show p ≠ 14 by omega)] at hWord
    exact hWord
  have hSpKept : (framed.restore back 5).get sp = memory.get sp := by
    rw [get_eq_word, get_eq_word memory, hCaptured (by decide), hFramed (by decide)]
    rfl
  have hArgKept : (framed.restore back 5).get arg = memory.get arg := by
    rw [get_eq_word, get_eq_word memory, hCaptured (by decide), hFramed (by decide)]
    rfl
  have hResult := word_putResult (hArgKept ▸ hArg) (hSpKept ▸ hSp) hLow (by omega) (by omega)
    hHigh hi
  rw [hArgKept, hCaptured (by omega), hFramed (by omega), if_neg (show s - 1 ≠ 15 by omega),
    if_neg (show s - 1 ≠ 14 by omega), hCaptured hi, hFramed hi] at hResult
  exact hResult

/-- **A return** leaves the result where `ARG` pointed and the registers of the caller. -/
theorem word_ret {i : Nat} (hi : i < ramSize) :
    memory.ret.word i =
      if i = 1 then memory.word (p + 1)
      else if i = 2 then memory.word (p + 2)
      else if i = 3 then memory.word (p + 3)
      else if i = 4 then memory.word (p + 4)
      else memory.resulted.word i := by
  have hResulted := fun {j} => word_resulted (i := j) hLcl hArg hSp hLow hLe hTop hHigh
  have h₀ : KeepsFrame p memory memory.resulted := by
    constructor
    · have hFrame : frame.toNat = 14 := rfl
      rw [get_eq_word, hFrame, hResulted (by decide), if_neg (by decide), if_neg (by omega),
        if_neg (by decide), if_pos rfl, hLcl]
    · intro j hAbove hj
      rw [hResulted hj, if_neg (by omega), if_neg (by omega), if_neg (by omega),
        if_neg (by omega)]
  have hBelow : 16 ≤ p ∧ p + 5 ≤ ramSize := ⟨by omega, by omega⟩
  obtain ⟨h₁, hThatBack⟩ := h₀.restore that 1 rfl rfl (by decide) (by decide) hBelow.1 hBelow.2
  obtain ⟨h₂, hThisBack⟩ := h₁.restore this 2 rfl rfl (by decide) (by decide) hBelow.1 hBelow.2
  obtain ⟨h₃, hArgBack⟩ := h₂.restore arg 3 rfl rfl (by decide) (by decide) hBelow.1 hBelow.2
  obtain ⟨-, hLclBack⟩ := h₃.restore lcl 4 rfl rfl (by decide) (by decide) hBelow.1 hBelow.2
  show ((((memory.resulted.restore that 1).restore this 2).restore arg 3).restore lcl 4).word i = _
  rw [hLclBack hi, hArgBack hi, hThisBack hi, hThatBack hi]
  rfl

end Return

end Memory

end HackVm
