import Mathlib.Data.Nat.Find
import HackVm.Proofs.LoadOutcome

/-!
# Runs are steps

The machine has two loops, `run` and `runTo`, that stop early.  Neither does anything but take steps:
a machine that is finished stays as it is, so the steps that a loop saves make no difference.

* `Cpu.run_eq`: a run of at most `n` steps is `n` steps.
* `Cpu.runTo_of_first`, `Cpu.runTo_of_never`: a run to an address ends where the machine comes to the
  address for the first time, and is `n` steps if it does not come there.
* `runs_are_steps`: this for the machine and its symbols, in one statement.
-/

namespace HackVm

namespace Cpu

variable {rom : Array Op} {cpu : Cpu} {target k n : Nat}

theorem iterate_of_isFinished (h : cpu.isFinished rom = true) (n : Nat) :
    (step rom)^[n] cpu = cpu :=
  Function.iterate_fixed (step_eq_self h) n

/-- A machine comes to one end only. -/
theorem iterate_unique_of_isFinished (hk : ((step rom)^[k] cpu).isFinished rom = true)
    (hn : ((step rom)^[n] cpu).isFinished rom = true) : (step rom)^[k] cpu = (step rom)^[n] cpu := by
  calc (step rom)^[k] cpu
      = (step rom)^[n] ((step rom)^[k] cpu) := (iterate_of_isFinished hk n).symm
    _ = (step rom)^[k] ((step rom)^[n] cpu) := by
        rw [← Function.iterate_add_apply, Nat.add_comm, Function.iterate_add_apply]
    _ = (step rom)^[n] cpu := iterate_of_isFinished hn k

/-- **A run of at most `n` steps is `n` steps.** -/
theorem run_eq (cpu : Cpu) : cpu.run rom n =
    (if ((step rom)^[n] cpu).isFinished rom then .finished else .limitReached,
      (step rom)^[n] cpu) := by
  induction n generalizing cpu with
  | zero => rfl
  | succ n ih =>
    rw [run]
    split
    · next hFinished => rw [iterate_of_isFinished hFinished, if_pos hFinished]
    · rw [ih, Function.iterate_succ_apply]

/-- **A run to an address** ends where the machine comes there for the first time. -/
theorem runTo_of_first (hk : k ≤ n) (hAt : ((step rom)^[k] cpu).pc = target)
    (hFirst : ∀ j < k, ((step rom)^[j] cpu).pc ≠ target) :
    cpu.runTo rom target n = (true, (step rom)^[k] cpu) := by
  induction k generalizing n cpu with
  | zero =>
    have hHere : cpu.pc = target := hAt
    cases n with
    | zero => rw [runTo, beq_iff_eq.mpr hHere]; rfl
    | succ n => rw [runTo, if_pos hHere]; rfl
  | succ k ih =>
    obtain ⟨n, rfl⟩ := Nat.exists_eq_add_of_lt hk
    have hNotYet : cpu.pc ≠ target := hFirst 0 (Nat.succ_pos k)
    have hGoesOn : ¬ cpu.isFinished rom = true := by
      intro hFinished
      rw [iterate_of_isFinished hFinished] at hAt
      exact hNotYet hAt
    rw [runTo, if_neg hNotYet, if_neg hGoesOn]
    exact ih (Nat.le_add_right k n) hAt fun j hj => hFirst (j + 1) (Nat.succ_lt_succ hj)

theorem runTo_of_never (h : ∀ k ≤ n, ((step rom)^[k] cpu).pc ≠ target) :
    cpu.runTo rom target n = (false, (step rom)^[n] cpu) := by
  have hNotYet : cpu.pc ≠ target := h 0 (Nat.zero_le n)
  induction n generalizing cpu with
  | zero => rw [runTo, beq_false_of_ne hNotYet]; rfl
  | succ n ih =>
    rw [runTo, if_neg hNotYet]
    split
    · next hFinished => rw [iterate_of_isFinished hFinished]
    · exact ih (fun k hk => h (k + 1) (Nat.succ_le_succ hk)) (h 1 (Nat.le_add_left 1 n))

theorem exists_first (hk : k ≤ n) (hAt : ((step rom)^[k] cpu).pc = target) :
    ∃ k ≤ n, ((step rom)^[k] cpu).pc = target ∧ ∀ j < k, ((step rom)^[j] cpu).pc ≠ target := by
  have hSome : ∃ k, ((step rom)^[k] cpu).pc = target := ⟨k, hAt⟩
  exact ⟨Nat.find hSome, Nat.le_trans (Nat.find_min' hSome hAt) hk, Nat.find_spec hSome,
    fun _ => Nat.find_min hSome⟩

theorem runTo_eq_true_iff :
    (cpu.runTo rom target n).1 = true ↔ ∃ k ≤ n, ((step rom)^[k] cpu).pc = target := by
  constructor
  · intro hReached
    by_contra hNever
    rw [runTo_of_never fun k hk hAt => hNever ⟨k, hk, hAt⟩] at hReached
    cases hReached
  · rintro ⟨k, hk, hAt⟩
    obtain ⟨first, hLe, hFirst, hBefore⟩ := exists_first hk hAt
    rw [runTo_of_first hLe hFirst hBefore]

end Cpu

theorem Machine.run_eq (machine : Machine) (n : Nat) : machine.run n =
    (if (Machine.step^[n] machine).isFinished then .finished else .limitReached,
      Machine.step^[n] machine) := by
  rw [Machine.iterate_step, Machine.run, Cpu.run_eq]
  rfl

/-- **Runs are steps.**  A finished machine stays as it is.  A run leaves the machine where as many
steps leave it, and is finished if and only if the machine is; a second run goes on as one longer
run does.  A run to a symbol reaches it if and only if the machine comes to its address within the
steps allowed; then it ends where the machine does so for the first time, and otherwise where all
the steps leave it. -/
theorem runs_are_steps (machine : Machine) :
    (machine.isFinished = true → machine.step = machine) ∧
    (∀ n, (machine.run n).2 = Machine.step^[n] machine ∧
      ((machine.run n).1 = .finished ↔ (Machine.step^[n] machine).isFinished = true)) ∧
    (∀ n m, (machine.run n).2.run m = machine.run (n + m)) ∧
    ∀ name target, machine.symbol? name = some target → ∀ n,
      ((machine.runTo name n).1 = true ↔
        ∃ k ≤ n, (Machine.step^[k] machine).cpu.pc = target.toNat) ∧
      (∀ k ≤ n, (Machine.step^[k] machine).cpu.pc = target.toNat →
        (∀ j < k, (Machine.step^[j] machine).cpu.pc ≠ target.toNat) →
          (machine.runTo name n).2 = Machine.step^[k] machine) ∧
      ((machine.runTo name n).1 = false →
        (machine.runTo name n).2 = Machine.step^[n] machine) := by
  have hCpu : ∀ k, (Machine.step^[k] machine).cpu =
      (Cpu.step machine.image.rom)^[k] machine.cpu := by
    intro k
    rw [Machine.iterate_step]
  refine ⟨?_, ?_, ?_, ?_⟩
  · intro hFinished
    rw [Machine.step, Cpu.step_eq_self hFinished]
  · intro n
    rw [Machine.run_eq]
    refine ⟨rfl, ?_⟩
    split
    · next hFinished => exact iff_of_true rfl hFinished
    · next hGoesOn => exact iff_of_false nofun hGoesOn
  · intro n m
    simp only [Machine.run_eq]
    rw [Nat.add_comm, Function.iterate_add_apply]
  · intro name target hTarget n
    have hRunTo : machine.runTo name n =
        ((machine.cpu.runTo machine.image.rom target.toNat n).1,
          { machine with cpu := (machine.cpu.runTo machine.image.rom target.toNat n).2 }) := by
      rw [Machine.runTo, hTarget]
    simp only [hRunTo, hCpu]
    refine ⟨Cpu.runTo_eq_true_iff, ?_, ?_⟩
    · intro k hk hAt hFirst
      rw [Cpu.runTo_of_first hk hAt hFirst, Machine.iterate_step]
    · intro hMissed
      rw [Cpu.runTo_of_never, Machine.iterate_step]
      intro k hk hAt
      rw [Cpu.runTo_eq_true_iff.mpr ⟨k, hk, hAt⟩] at hMissed
      cases hMissed

/-- A program that jumps to a label at its very end. -/
def jumpToEnd : Code :=
  [.load (.symbol "END"), .compute none .zero (some .JMP), .label "END"]

/-- The label at the end is reached with the last step allowed, and is not with one step fewer. -/
theorem end_reached_in_time :
    ∃ machine, Machine.load jumpToEnd = .ok machine ∧ machine.symbol? "END" = some 2 ∧
      (machine.runTo "END" 2).1 = true ∧ (machine.runTo "END" 2).2 = Machine.step^[2] machine ∧
      (machine.runTo "END" 1).1 = false ∧ (machine.runTo "END" 1).2 = Machine.step^[1] machine := by
  have hLoads : ∃ machine, Machine.load jumpToEnd = .ok machine :=
    Machine.load_isOk_iff.mpr (by decide)
  obtain ⟨machine, hMachine⟩ := hLoads
  have hLoaded := Machine.loaded_of_load hMachine
  have hEnd : machine.symbol? "END" = some 2 := (hLoaded.symbol_label [_, _] _ _ rfl).2
  have hAddress : machine.image.address "END" = 2 :=
    Option.some.inj ((hLoaded.symbol_loaded "END" (by decide)).symm.trans hEnd)
  have hRom : machine.image.rom = #[.load 2, .compute none .zero (some .JMP)] := by
    rw [← Array.toList_inj, hLoaded.rom_eq, jumpToEnd, ← hAddress]
    rfl
  have hPlaces : ∀ k, (Machine.step^[k] machine).cpu =
      (Cpu.step #[.load 2, .compute none .zero (some .JMP)])^[k] {} := by
    intro k
    rw [Machine.iterate_step, hRom, hLoaded.cpu_eq]
  have hAt : (Machine.step^[2] machine).cpu.pc = 2 := by
    rw [hPlaces]
    rfl
  have hBefore : ∀ j < 2, (Machine.step^[j] machine).cpu.pc ≠ 2 := by
    simp only [hPlaces]
    decide
  obtain ⟨-, -, -, hRunTo⟩ := runs_are_steps machine
  have hMissed : (machine.runTo "END" 1).1 = false := by
    rw [Bool.eq_false_iff]
    intro hReached
    obtain ⟨k, hk, hThere⟩ := (hRunTo _ _ hEnd 1).1.mp hReached
    exact hBefore k (Nat.lt_succ_of_le hk) hThere
  obtain ⟨hReached, hFirst, -⟩ := hRunTo _ _ hEnd 2
  exact ⟨machine, hMachine, hEnd, hReached.mpr ⟨2, Nat.le_refl 2, hAt⟩,
    hFirst 2 (Nat.le_refl 2) hAt hBefore, hMissed, (hRunTo _ _ hEnd 1).2.2 hMissed⟩

end HackVm
