import HackVm.Proofs.CommandRun
import HackVm.Proofs.DistinctLabels
import HackVm.Proofs.FrameLayout
import HackVm.Proofs.Site

/-!
# Calls and returns

A call comes to the code behind the locals of its function with a frame on the stack, and any
`return` that finds `LCL`, `ARG` and the frame as the call has left them gives the caller its
registers back and continues behind the call.

* `Site.call_enters`, `Site.ret_arrives`: where the machine goes on, and with which memory.
* `call_returns_to_caller`: the two together, word by word.
-/

namespace HackVm

open Instruction Register

/-! ### The two jumps -/

section Jumps

variable {options : Options} {parts : List Part} {image : Image}
  (h : Image.load (programCode options parts) = .ok image) {cpu : Cpu}

include h

/-- A call of a function that the program declares comes to the code behind its locals. -/
theorem Site.call_enters {caller callee : Site} (hCaller : caller ∈ sites options parts)
    (hCallee : callee ∈ sites options parts) {name : String} {arguments locals : Word}
    (hCall : caller.command = .call name arguments)
    (hFunction : callee.command = .function name locals)
    (hPc : cpu.pc = caller.address) :
    ∃ n, Cpu.ArrivesAt image.rom n cpu callee.next
      ((cpu.memory.call .pushUnder (UInt16.ofNat caller.next) arguments).enter .pushUnder
        locals) := by
  have hCallerAt : Code.At (programCode options parts) cpu.pc caller.code :=
    hPc ▸ Code.at_site hCaller
  have hCallerCode : caller.code = callCode name arguments caller.scope.returnSymbol := by
    rw [Site.code, hCall]
    rfl
  have hCalleeCode : callee.code = functionCode name locals := by
    rw [Site.code, hFunction]
    rfl
  have hSymbol : (image.address name).toNat = callee.address :=
    address_declared h hCallee (Site.declared?_of_function hFunction)
  rw [hCallerCode] at hCallerAt
  have hJump := Cpu.arrivesAt_call h hCallerAt
  rw [hSymbol, hPc, ← hCallerCode] at hJump
  refine ⟨caller.size + callee.size, hJump.trans fun middle hMiddle hMemory => ?_⟩
  have hCalleeAt : Code.At (programCode options parts) middle.pc callee.code :=
    hMiddle ▸ Code.at_site hCallee
  rw [hCalleeCode] at hCalleeAt
  obtain ⟨hStraight, hLocals⟩ := run_functionCode (Image.fixedAddresses h) middle name locals
  have hEnter := Cpu.arrivesAt_straight h hCalleeAt hStraight hLocals
  rw [← hCalleeCode, hMiddle, hMemory] at hEnter
  exact hEnter

/-- A return goes on at the address that it finds in the frame. -/
theorem Site.ret_arrives {back : Site} (hBack : back ∈ sites options parts)
    (hRet : back.command = .ret) (hPc : cpu.pc = back.address) :
    ∃ n, Cpu.ArrivesAt image.rom n cpu (cpu.memory.ret.get Register.back).toNat cpu.memory.ret := by
  have hAt : Code.At (programCode options parts) cpu.pc back.code := hPc ▸ Code.at_site hBack
  have hCode : back.code = returnCode := by
    rw [Site.code, hRet]
    rfl
  rw [hCode] at hAt
  exact ⟨_, Cpu.arrivesAt_ret h hAt⟩

theorem Site.next_le_romSize {site : Site} (hSite : site ∈ sites options parts) :
    site.next ≤ romSize :=
  Image.le_romSize_of_at h (Code.at_site hSite)

end Jumps

/-! ### The protocol -/

section Words

variable {old last : Memory} {p : Nat} {address arguments locals : Word}
  (hSp : (old.get sp).toNat = p) (hLow : 16 + arguments.toNat ≤ p)
  (hHigh : p + 5 + locals.toNat ≤ ramSize)

include hSp hLow hHigh

theorem get_entered (new : Memory)
    (hNew : (old.call .pushUnder address arguments).enter .pushUnder locals = new) :
    new.get arg = old.get sp - arguments ∧ new.get lcl = old.get sp + 5 ∧
      new.get sp = old.get sp + 5 + locals ∧ new.get this = old.get this ∧
      new.get that = old.get that := by
  subst hNew
  have hWord := fun {i} => Memory.word_entered (i := i) address arguments hSp (by omega) hHigh
  have hArg := hWord (i := 2) (by omega) (by decide)
  have hLcl := hWord (i := 1) (by omega) (by decide)
  have hRest := fun {i} => Memory.word_entered_of_lt (i := i) address arguments hSp (by omega) hHigh
  rw [if_neg (by omega), if_neg (by decide), if_pos rfl] at hArg
  rw [if_neg (by omega), if_pos rfl] at hLcl
  refine ⟨hArg, hLcl, ?_, hRest (i := 3) (by omega) (by decide),
    hRest (i := 4) (by omega) (by decide)⟩
  apply UInt16.toNat_inj.mp
  rw [Memory.toNat_get_sp_entered address arguments hSp (by omega) hHigh, UInt16.toNat_add,
    UInt16.toNat_add, hSp]
  unfold ramSize at hHigh
  show p + 5 + locals.toNat = ((p + 5) % 2 ^ 16 + locals.toNat) % 2 ^ 16
  omega

/-- The registers and the result behind a return that finds the frame as the call has left it. -/
theorem get_returned (hLcl : last.get lcl = old.get sp + 5)
    (hArg : last.get arg = old.get sp - arguments)
    (hFrame : ∀ i < 5, (old.frameWords address)[i]? = some (last.word (p + i)))
    (hTop : last.get lcl ≤ last.get sp) (hSize : (last.get sp).toNat ≤ ramSize) :
    last.ret.get back = address ∧ last.ret.get lcl = old.get lcl ∧
      last.ret.get arg = old.get arg ∧ last.ret.get this = old.get this ∧
      last.ret.get that = old.get that ∧ last.ret.get sp = old.get sp - arguments + 1 ∧
      last.ret.word (p - arguments.toNat) = last.word ((last.get sp).toNat - 1) ∧
      ∀ i, 5 ≤ i → i < ramSize → i ≠ 14 → i ≠ 15 → i ≠ p - arguments.toNat →
        last.ret.word i = last.word i := by
  have hRam : ramSize = 32768 := rfl
  have hLclNat : (last.get lcl).toNat = p + 5 := by
    rw [hLcl, UInt16.toNat_add, hSp]
    show (p + 5) % 2 ^ 16 = p + 5
    omega
  have hArgNat : (last.get arg).toNat = p - arguments.toNat := by
    have hLe : arguments ≤ old.get sp := UInt16.le_iff_toNat_le.mpr (by omega)
    rw [hArg, UInt16.toNat_sub_of_le _ _ hLe, hSp]
  have hTopNat : p + 5 ≤ (last.get sp).toNat := by
    rw [← hLclNat]
    exact UInt16.le_iff_toNat_le.mp hTop
  have hResulted := fun {i} => Memory.word_resulted (i := i) hLclNat hArgNat rfl (by omega)
    (Nat.sub_le p _) hTopNat hSize
  have hWord := fun {i} => Memory.word_ret (i := i) hLclNat hArgNat rfl (by omega)
    (Nat.sub_le p _) hTopNat hSize
  have hRest : ∀ {i}, i < ramSize → i = 0 ∨ 5 ≤ i → last.ret.word i = last.resulted.word i := by
    intro i hi hOther
    rw [hWord hi, if_neg (by omega), if_neg (by omega), if_neg (by omega), if_neg (by omega)]
  refine ⟨?_, ?_, ?_, ?_, ?_, ?_, ?_, ?_⟩
  · have hBack : last.ret.get back = last.ret.word 15 := rfl
    rw [hBack, hRest (by decide) (by decide), hResulted (by decide), if_neg (by decide),
      if_neg (by omega), if_pos rfl]
    exact (Option.some.inj (hFrame 0 (by decide))).symm
  · exact (hWord (i := 1) (by decide)).trans (Option.some.inj (hFrame 1 (by decide))).symm
  · exact (hWord (i := 2) (by decide)).trans (Option.some.inj (hFrame 2 (by decide))).symm
  · exact (hWord (i := 3) (by decide)).trans (Option.some.inj (hFrame 3 (by decide))).symm
  · exact (hWord (i := 4) (by decide)).trans (Option.some.inj (hFrame 4 (by decide))).symm
  · have hZero : last.ret.get sp = last.ret.word 0 := rfl
    rw [hZero, hRest (by decide) (Or.inl rfl), hResulted (by decide), if_pos rfl, hArg]
  · rw [hRest (by omega) (by omega), hResulted (by omega), if_neg (by omega), if_pos rfl]
  · intro i hLe hi h14 h15 hSlot
    rw [hRest hi (Or.inr hLe), hResulted hi, if_neg (by omega), if_neg hSlot, if_neg h15,
      if_neg h14]

end Words

/-- **A call comes to the code behind the locals of its function**, with a frame above the
arguments, and **every return that finds the frame as it was comes back behind the call**, with the
registers of the caller, the result in place of the first argument, and no other word changed but
its two scratch registers.  The words of the frame may be all that is left of the stack of the
function, and without arguments the result replaces the address to return to. -/
theorem call_returns_to_caller {options : Options} {sources : List Source} {parts : List Part}
    {code : Code} {machine : Machine} (hRead : readSources sources = .ok parts)
    (hTranslate : translate options sources = .ok code) (hLoad : Machine.load code = .ok machine)
    {caller callee : Site} (hCaller : caller ∈ sites options parts)
    (hCallee : callee ∈ sites options parts) {name : String} {arguments locals : Word}
    (hCall : caller.command = .call name arguments)
    (hFunction : callee.command = .function name locals)
    {here : Machine} (hHere : here.image = machine.image) (hPc : here.cpu.pc = caller.address)
    {old : Memory} (hOld : here.cpu.memory = old) {p : Nat} (hSp : (old.get sp).toNat = p)
    (hLow : 16 + arguments.toNat ≤ p) (hHigh : p + 5 + locals.toNat ≤ ramSize) :
    ∃ n new, (Machine.step^[n] here).cpu.pc = callee.next ∧
      (Machine.step^[n] here).cpu.memory = new ∧
      new.get arg = old.get sp - arguments ∧ new.get lcl = old.get sp + 5 ∧
      new.get sp = old.get sp + 5 + locals ∧
      (∀ i < locals.toNat, new.word (p + 5 + i) = 0) ∧
      new.get this = old.get this ∧ new.get that = old.get that ∧
      (∀ i, 16 ≤ i → i < p → new.word i = old.word i) ∧
      (∀ i < 5, (old.frameWords (UInt16.ofNat caller.next))[i]? = some (new.word (p + i))) ∧
      ∀ back ∈ sites options parts, back.command = .ret →
        ∀ there : Machine, there.image = machine.image → there.cpu.pc = back.address →
          ∀ last, there.cpu.memory = last →
            last.get lcl = new.get lcl → last.get arg = new.get arg →
            (∀ i < 5, last.word (p + i) = new.word (p + i)) →
            last.get lcl ≤ last.get sp → (last.get sp).toNat ≤ ramSize →
            ∃ m final, (Machine.step^[m] there).cpu.pc = caller.next ∧
              (Machine.step^[m] there).cpu.memory = final ∧
              final.get lcl = old.get lcl ∧ final.get arg = old.get arg ∧
              final.get this = old.get this ∧ final.get that = old.get that ∧
              final.get sp = old.get sp - arguments + 1 ∧
              final.word (p - arguments.toNat) = last.word ((last.get sp).toNat - 1) ∧
              ∀ i, 5 ≤ i → i < ramSize → i ≠ 14 → i ≠ 15 → i ≠ p - arguments.toNat →
                final.word i = last.word i := by
  obtain rfl := translate_eq_ok hRead hTranslate
  obtain ⟨hImage, -⟩ := Machine.load_eq_ok hLoad
  obtain ⟨n, hEnter⟩ := Site.call_enters hImage hCaller hCallee hCall hFunction hPc
  rw [← hHere, hOld] at hEnter
  obtain ⟨hNext, hNew⟩ := Machine.arrives hEnter
  obtain ⟨hArg, hLcl, hTop, hThis, hThat⟩ := get_entered hSp hLow hHigh _ rfl
  have hFrame := fun i hi => Memory.word_entered_frame (i := i) (UInt16.ofNat caller.next) arguments
    hSp (by omega) hHigh hi
  refine ⟨n, _, hNext, hNew, hArg, hLcl, hTop, ?_, hThis, hThat, ?_, hFrame, ?_⟩
  · intro i hi
    rw [Memory.word_entered _ arguments hSp (by omega) hHigh (by omega) (by omega),
      if_pos (Nat.le_add_right _ _)]
  · intro i hLe hLt
    exact Memory.word_entered_of_lt _ arguments hSp (by omega) hHigh hLt (by omega)
  · intro back hBack hRet there hThere hBackPc last hLast hLastLcl hLastArg hKept hStack hSize
    obtain ⟨m, hReturn⟩ := Site.ret_arrives hImage hBack hRet hBackPc
    rw [← hThere, hLast] at hReturn
    obtain ⟨hContinue, hFinal⟩ := Machine.arrives hReturn
    obtain ⟨hAddress, hRegisters⟩ := get_returned hSp hLow hHigh (hLastLcl.trans hLcl)
      (hLastArg.trans hArg) (fun i hi => by rw [hKept i hi]; exact hFrame i hi) hStack hSize
    refine ⟨m, last.ret, ?_, hFinal, hRegisters⟩
    have hRom := Site.next_le_romSize hImage hCaller
    unfold romSize at hRom
    rw [hContinue, hAddress, UInt16.toNat_ofNat']
    omega

/-- A call without arguments of a function that returns at once. -/
theorem call_returns_at_once :
    ∃ code machine here n, translate {}
        [.ofText "Sys" "function Sys.init 0\ncall Main.run 0\nfunction Main.run 1\nreturn"] =
          .ok code ∧
      Machine.load code = .ok machine ∧ here.image = machine.image ∧ here.cpu.pc = 48 ∧
      here.cpu.memory = (Memory.zeros.set sp 256).set lcl 300 ∧
      (Machine.step^[n] here).cpu.pc = 92 ∧ (Machine.step^[n] here).cpu.memory.get lcl = 300 ∧
      (Machine.step^[n] here).cpu.memory.get sp = 257 := by
  let parts : List Part := [⟨"Sys", [⟨⟨"Sys.vm", 1⟩, .function "Sys.init" 0⟩,
    ⟨⟨"Sys.vm", 2⟩, .call "Main.run" 0⟩, ⟨⟨"Sys.vm", 3⟩, .function "Main.run" 1⟩,
    ⟨⟨"Sys.vm", 4⟩, .ret⟩]⟩]
  have hRead : readSources
      [.ofText "Sys" "function Sys.init 0\ncall Main.run 0\nfunction Main.run 1\nreturn"] =
        .ok parts := rfl
  have hNodup : (Code.labels (programCode {} parts)).Nodup := by decide
  have hTranslate := translate_isOk hRead (by decide) hNodup
  obtain ⟨image, hImage⟩ := Image.load_isOk hNodup (by decide) (by decide +kernel) (by decide)
  have hLoad := Machine.load_of_image hImage
  let caller : Site := ⟨⟨"Sys", "Sys.init", 0, 1⟩, .call "Main.run" 0, 48⟩
  let callee : Site := ⟨⟨"Sys", "Sys.init", 0, 2⟩, .function "Main.run" 1, 92⟩
  let back : Site := ⟨⟨"Sys", "Main.run", 0, 2⟩, .ret, 98⟩
  have hCaller : caller ∈ sites {} parts := by decide
  have hCallee : callee ∈ sites {} parts := by decide
  have hBack : back ∈ sites {} parts := by decide
  obtain ⟨old, hOld⟩ : ∃ old, old = (Memory.zeros.set sp 256).set lcl 300 := ⟨_, rfl⟩
  have hOldSp : old.get sp = 256 := by rw [hOld]; decide +kernel
  have hOldLcl : old.get lcl = 300 := by rw [hOld]; decide +kernel
  let here : Machine := ⟨image, { memory := old, pc := 48 }⟩
  have hHere : here.image = (Machine.mk image {}).image := rfl
  have hPc : here.cpu.pc = caller.address := rfl
  have hSp : (old.get sp).toNat = 256 := by rw [hOldSp]; rfl
  obtain ⟨n, new, hNext, hNew, hArg, hLcl, hTop, -, -, -, -, -, hReturn⟩ :=
    call_returns_to_caller hRead hTranslate hLoad hCaller hCallee rfl rfl hHere hPc rfl hSp
      (by decide) (by decide)
  rw [hOldSp] at hLcl hTop
  obtain ⟨m, final, hContinue, hFinal, hLast, -, -, -, hLastSp, -⟩ := hReturn back hBack rfl
    (Machine.step^[n] here) (Machine.image_iterate_step here n) hNext new hNew rfl rfl
    (fun _ _ => rfl) (by rw [hLcl, hTop]; decide) (by rw [hTop]; decide)
  rw [← Function.iterate_add_apply] at hContinue hFinal
  refine ⟨_, _, here, m + n, hTranslate, hLoad, rfl, rfl, hOld, hContinue, ?_, ?_⟩
  · rw [hFinal, hLast, hOldLcl]
  · rw [hFinal, hLastSp, hOldSp]
    decide

end HackVm
