import Mathlib.Data.List.Induction
import HackVm.Proofs.ProblemPath

/-!
# Checked heights fit into words

Behind each command the height is at most one more than before, and a height that comes back with a
label was that of an earlier command of the same function.  So no height is above the number of
commands since the last `function` (`StackCheck.Within`), and as long as that number fits into a
word, no sum of the check wraps.

* `StackCheck.Within.step`, `StackCheck.within_behind`: no height is above the number of commands.
* `StackCheck.Within.heights_step`: nor is a height that is reported.
* `StackCheck.sumsFit_behind`: so all sums are words.
* `heights_in_range`: all of this for a program.
-/

namespace HackVm

/-! ### Counting commands -/

/-- How many commands stand behind the last `function`, or behind the start. -/
def sinceFunction (statements : List Statement) : Nat :=
  statements.foldl (fun n s => if s.command.beginsFunction then 0 else n + 1) 0

theorem sinceFunction_concat (statements : List Statement) (s : Statement) :
    sinceFunction (statements ++ [s]) =
      if s.command.beginsFunction then 0 else sinceFunction statements + 1 := by
  rw [sinceFunction, List.foldl_append]
  rfl

/-- Between a `function`, or the start, and the next, or the end, there are at most so many
commands. -/
def BodiesUpTo (limit : Nat) (statements : List Statement) : Prop :=
  ∀ stretch, stretch <:+: statements → (∀ s ∈ stretch, s.command.beginsFunction = false) →
    stretch.length ≤ limit

theorem exists_stretch (statements : List Statement) :
    ∃ front stretch, statements = front ++ stretch ∧
      (∀ s ∈ stretch, s.command.beginsFunction = false) ∧
      stretch.length = sinceFunction statements := by
  induction statements using List.reverseRecOn with
  | nil => exact ⟨[], [], rfl, nofun, rfl⟩
  | append_singleton statements s ih =>
    rw [sinceFunction_concat]
    cases hBegins : s.command.beginsFunction with
    | true => exact ⟨statements ++ [s], [], (List.append_nil _).symm, nofun, rfl⟩
    | false =>
      obtain ⟨front, stretch, hSplit, hInner, hLength⟩ := ih
      refine ⟨front, stretch ++ [s], ?_, ?_, ?_⟩
      · rw [hSplit, List.append_assoc]
      · intro t ht
        rcases List.mem_append.mp ht with hOld | hLast
        · exact hInner t hOld
        · rw [List.mem_singleton.mp hLast]
          exact hBegins
      · rw [List.length_append, hLength]
        rfl

theorem BodiesUpTo.sinceFunction_le {limit : Nat} {before after : List Statement}
    (h : BodiesUpTo limit (before ++ after)) : sinceFunction before ≤ limit := by
  obtain ⟨front, stretch, rfl, hInner, hLength⟩ := exists_stretch before
  rw [← hLength]
  exact h stretch ⟨front, after, rfl⟩ hInner

theorem BodiesUpTo.succ_sinceFunction_le {limit : Nat} {before after : List Statement}
    {s : Statement} (h : BodiesUpTo limit (before ++ s :: after))
    (hFunction : s.command.beginsFunction = false) : sinceFunction before + 1 ≤ limit := by
  have hSplit : before ++ s :: after = (before ++ [s]) ++ after := by simp
  rw [hSplit] at h
  have hCount := h.sinceFunction_le
  rwa [sinceFunction_concat, hFunction] at hCount

theorem bodiesUpTo_of_length_le {limit : Nat} {statements : List Statement}
    (h : statements.length ≤ limit) : BodiesUpTo limit statements :=
  fun _ hInfix _ => Nat.le_trans hInfix.length_le h

theorem Command.pushes_le_one {command : Command} (h : command.beginsFunction = false) :
    command.effect.pushes ≤ 1 := by
  cases command with
  | function name locals => cases h
  | _ => simp [effect]

/-- The heights that a problem tells of. -/
def StackProblem.heights : StackProblem → List Word
  | underflow _ _ _ _ available => [available]
  | missingResult _ _ => []
  | unequalHeights _ _ expected found => [expected, found]

namespace StackCheck

/-! ### Heights are bounded -/

/-- A command that begins no function leaves one value more at most; a sum that wraps is less. -/
theorem level_le {command : Command} (hFunction : command.beginsFunction = false) (h : Word) :
    (level command h : Nat) ≤ h + 1 := by
  have hPushes := Command.pushes_le_one hFunction
  rw [level_eq hFunction, UInt16.toNat_add, Word.toNat_minus,
    UInt16.toNat_ofNat_of_lt' (Nat.lt_of_le_of_lt hPushes (by decide))]
  refine Nat.le_trans (Nat.mod_le _ _) ?_
  omega

/-- No height that the check knows is above a number. -/
structure Within (check : StackCheck) (n : Nat) : Prop where
  height_le : ∀ h : Word, check.height = some h → (h : Nat) ≤ n
  reached_le : ∀ (label : String) (h : Word), check.reached[label]? = some h → (h : Nat) ≤ n

theorem within_zero (name : String) : Within { function := name } 0 := by
  refine ⟨fun h hh => Nat.le_of_eq ?_, fun label h hh => ?_⟩
  · rw [← Option.some.inj hh]
    rfl
  · have hNone : (∅ : Std.HashMap String Word)[label]? = some h := hh
    simp at hNone

namespace Within

variable {check : StackCheck} {n : Nat} (hWithin : check.Within n)

include hWithin

theorem heightAt_le {command : Command} {h : Word} (hAt : check.heightAt command = some h) :
    (h : Nat) ≤ n := by
  cases command with
  | function name locals =>
    rw [← Option.some.inj hAt]
    exact Nat.zero_le n
  | label name =>
    rw [heightAt] at hAt
    cases hKnown : check.height with
    | some found =>
      rw [hKnown] at hAt
      exact hWithin.height_le h (hKnown.trans hAt)
    | none =>
      rw [hKnown] at hAt
      exact hWithin.reached_le name h hAt
  | _ => exact hWithin.height_le h hAt

theorem take (s : Statement) (needed : Word) : (check.take s needed).1.Within n := by
  refine ⟨fun h hh => ?_, fun label h hh => ?_⟩
  · obtain ⟨k, hk, rfl⟩ := height_take hh
    rw [Word.toNat_minus]
    exact Nat.le_trans (Nat.sub_le _ _) (hWithin.height_le k hk)
  · rw [reached_take] at hh
    exact hWithin.reached_le label h hh

/-- **A command raises the heights by one at most**, and a `function` has all of them forgotten. -/
theorem step (s : Statement) :
    (check.step s).1.Within (if s.command.beginsFunction then 0 else n + 1) := by
  cases hBegins : s.command.beginsFunction with
  | true =>
    obtain ⟨position, command⟩ := s
    cases command with
    | function name locals => exact within_zero name
    | _ => cases hBegins
  | false =>
    refine ⟨fun m hm => ?_, fun label m hm => ?_⟩
    · obtain ⟨-, h, hAt, rfl⟩ := height_step hm
      exact Nat.le_trans (level_le hBegins h) (Nat.succ_le_succ (hWithin.heightAt_le hAt))
    · -- What a label had before is still bounded; what it gets now is the height behind here.
      rcases reached_step hm with hOld | ⟨-, h, hAt, rfl⟩
      · exact Nat.le_succ_of_le (hWithin.reached_le label m hOld)
      · exact Nat.le_trans (level_le hBegins h) (Nat.succ_le_succ (hWithin.heightAt_le hAt))

theorem heights_take (s : Statement) (needed : Word) :
    ∀ problem ∈ (check.take s needed).2, ∀ h ∈ problem.heights, (h : Nat) ≤ n := by
  intro problem hProblem h hh
  obtain ⟨available, hHeight, -, rfl⟩ := take_reports hProblem
  rw [List.mem_singleton.mp hh]
  exact hWithin.height_le available hHeight

theorem heights_reach (position : Position) (label : String) :
    ∀ problem ∈ (check.reach position label).2, ∀ h ∈ problem.heights, (h : Nat) ≤ n := by
  intro problem hProblem h hh
  obtain ⟨found, expected, hHeight, hReached, -, rfl⟩ := reach_reports hProblem
  rcases List.mem_cons.mp hh with rfl | hFound
  · exact hWithin.reached_le label h hReached
  · rw [List.mem_singleton.mp hFound]
    exact hWithin.height_le found hHeight

/-- **A problem tells of no height above the number** that bounds the heights before it. -/
theorem heights_step (s : Statement) :
    ∀ problem ∈ (check.step s).2, ∀ h ∈ problem.heights, (h : Nat) ≤ n := by
  obtain ⟨position, command⟩ := s
  cases command with
  | function name locals => exact nofun
  | label name =>
    cases hKnown : check.height with
    | some found =>
      rw [step_label_of_some hKnown]
      exact hWithin.heights_reach position name
    | none =>
      rw [step_label_of_none hKnown]
      exact nofun
  | goto name => exact hWithin.heights_reach position name
  | ifGoto name =>
    intro problem hProblem
    rcases List.mem_append.mp hProblem with hTake | hReach
    · exact hWithin.heights_take _ 1 problem hTake
    · exact (hWithin.take _ 1).heights_reach position name problem hReach
  | ret =>
    intro problem hProblem h hh
    have hMissing : problem ∈ if check.height = some 0 then
      [StackProblem.missingResult position check.function] else [] := hProblem
    split at hMissing
    · rw [List.mem_singleton.mp hMissing] at hh
      cases hh
    · cases hMissing
  | _ => exact hWithin.heights_take _ _

theorem add_pushes_le {s : Statement} (hFunction : s.command.beginsFunction = false) {h : Word}
    (hTaken : (check.take s (.ofNat s.command.effect.pops)).1.height = some h) :
    h + s.command.effect.pushes ≤ n + 1 :=
  Nat.add_le_add ((hWithin.take s _).height_le h hTaken) (Command.pushes_le_one hFunction)

theorem sumFits {command : Command} (hWord : command.beginsFunction = false → n < 65535) :
    check.sumFits command = true := by
  cases hFunction : command.beginsFunction with
  | true => exact sumFits_of_beginsFunction hFunction
  | false =>
    rw [sumFits_eq hFunction, Option.all_eq_true]
    intro h hh
    have hLe := hWithin.height_le h hh
    have hPushes := Command.pushes_le_one hFunction
    have hBelow := hWord hFunction
    rw [decide_eq_true_iff, Word.toNat_minus]
    omega

end Within

/-- **No height is above the number of commands** since the last `function`. -/
theorem within_behind (statements : List Statement) :
    (behind {} statements).Within (sinceFunction statements) := by
  induction statements using List.reverseRecOn with
  | nil => exact within_zero entryPoint
  | append_singleton statements s ih =>
    rw [behind_append, sinceFunction_concat]
    exact ih.step s

/-- **No sum wraps** in a program without overlong bodies. -/
theorem sumsFit_behind {rest : List Statement} : ∀ {before : List Statement},
    BodiesUpTo 65535 (before ++ rest) → (behind {} before).sumsFit rest = true := by
  induction rest with
  | nil => exact fun _ => rfl
  | cons s rest ih =>
    intro before hBodies
    rw [sumsFit, Bool.and_eq_true]
    refine ⟨(within_behind before).sumFits hBodies.succ_sinceFunction_le, ?_⟩
    have hSplit : before ++ s :: rest = (before ++ [s]) ++ rest := by simp
    rw [hSplit] at hBodies
    have hRest := ih hBodies
    rw [behind_append] at hRest
    exact hRest

theorem exists_of_mem_problems {statements : List Statement} {problem : StackProblem} :
    ∀ {check : StackCheck}, problem ∈ check.problems statements →
      ∃ before s after, statements = before ++ s :: after ∧
        problem ∈ ((check.behind before).step s).2 := by
  induction statements with
  | nil => intro check h; cases h
  | cons s rest ih =>
    intro check h
    rcases List.mem_append.mp h with hHere | hRest
    · exact ⟨[], s, rest, rfl, hHere⟩
    · obtain ⟨before, t, after, rfl, hThere⟩ := ih hRest
      exact ⟨s :: before, t, after, rfl, hThere⟩

/-! ### Pushes -/

theorem step_push {check : StackCheck} {h : Word} (hHeight : check.height = some h) {s : Statement}
    {segment : Segment} {index : Word} (hs : s.command = .push segment index) :
    check.step s = ({ check with height := some (h + 1) }, []) := by
  obtain ⟨position, command⟩ := s
  cases hs
  have hTake : check.take ⟨position, .push segment index⟩ 0 = (check, []) := by
    rw [take, hHeight]
    simp only [Word.minus_zero, UInt16.not_lt_zero, if_false]
    rw [← hHeight]
  have hStep : check.step ⟨position, .push segment index⟩ =
      ({ (check.take ⟨position, .push segment index⟩ 0).1 with
          height := (check.take ⟨position, .push segment index⟩ 0).1.height.map (· + 1) },
        (check.take ⟨position, .push segment index⟩ 0).2) := rfl
  rw [hStep, hTake, hHeight]
  rfl

section Pushes

variable {pushes : List Statement}
  (hPushes : ∀ s ∈ pushes, ∃ segment index, s.command = .push segment index)

include hPushes

/-- Pushes raise the height by one each, and have no problem. -/
theorem behind_pushes : ∀ {check : StackCheck} {h : Word}, check.height = some h →
    check.behind pushes = { check with height := some (h + .ofNat pushes.length) } ∧
      check.problems pushes = [] := by
  induction pushes with
  | nil =>
    intro check h hHeight
    refine ⟨?_, rfl⟩
    show check = { check with height := some (h + 0) }
    rw [UInt16.add_zero, ← hHeight]
  | cons s pushes ih =>
    intro check h hHeight
    obtain ⟨⟨segment, index, hs⟩, hRest⟩ := List.forall_mem_cons.mp hPushes
    have hStep := step_push hHeight hs
    have hBehind : check.behind (s :: pushes) = (check.step s).1.behind pushes := rfl
    have hNext : (check.step s).1.height = some (h + 1) := by rw [hStep]
    obtain ⟨hLast, hNone⟩ := ih hRest hNext
    rw [hBehind, problems, hLast, hNone, hStep, List.length_cons, UInt16.ofNat_add,
      UInt16.add_assoc, UInt16.add_comm 1]
    exact ⟨rfl, rfl⟩

/-- No sum of pushes wraps as long as the last height is a word, and no longer. -/
theorem sumsFit_pushes : ∀ {check : StackCheck} {h : Word}, check.height = some h →
    check.sumsFit pushes = decide ((h : Nat) + pushes.length < 65536) := by
  induction pushes with
  | nil => exact fun _ => (decide_eq_true (UInt16.toNat_lt _)).symm
  | cons s pushes ih =>
    intro check h hHeight
    obtain ⟨⟨segment, index, hs⟩, hRest⟩ := List.forall_mem_cons.mp hPushes
    have hFit : check.sumFits s.command = decide ((h : Nat) + 1 < 65536) := by
      rw [hs, sumFits_eq rfl, hHeight]
      show decide ((Word.minus h 0).toNat + 1 < 65536) = _
      rw [Word.minus_zero]
    have hLength : (s :: pushes).length = pushes.length + 1 := rfl
    rw [sumsFit, step_push hHeight hs, hFit, hLength]
    by_cases hFits : (h : Nat) + 1 < 65536
    · have hNext : (h + 1 : Word).toNat = h.toNat + 1 := by
        rw [UInt16.toNat_add, UInt16.toNat_one, Nat.mod_eq_of_lt hFits]
      rw [ih hRest rfl, hNext, decide_eq_true hFits, Bool.true_and]
      exact decide_eq_decide.mpr (by omega)
    · rw [decide_eq_false hFits, Bool.false_and, decide_eq_false (by omega)]

end Pushes

end StackCheck

/-- **All heights of the check are in range**, if no function has more than 65535 commands.  What
the check knows is never above the number of commands since the last `function`, nor is a height
that a problem tells of, and what a command leaves is added to a height within that number.  So no
sum wraps, and the check reports the same if its sums are checked. -/
theorem heights_in_range {statements : List Statement} (hBodies : BodiesUpTo 65535 statements) :
    (∀ before after, statements = before ++ after →
      (StackCheck.behind {} before).Within (sinceFunction before) ∧
        sinceFunction before ≤ 65535) ∧
    (∀ before s after, ∀ h : Word, statements = before ++ s :: after →
      s.command.beginsFunction = false →
      ((StackCheck.behind {} before).take s (.ofNat s.command.effect.pops)).1.height = some h →
        h + s.command.effect.pushes ≤ sinceFunction before + 1 ∧
          sinceFunction before + 1 ≤ 65535) ∧
    (∀ problem ∈ stackProblems statements, ∃ before s after, statements = before ++ s :: after ∧
      problem ∈ ((StackCheck.behind {} before).step s).2 ∧
        ∀ h ∈ problem.heights, (h : Nat) ≤ sinceFunction before) ∧
    checkedProblems statements = some (stackProblems statements) := by
  refine ⟨?_, ?_, ?_, ?_⟩
  · rintro before after rfl
    exact ⟨StackCheck.within_behind before, hBodies.sinceFunction_le⟩
  · rintro before s after h rfl hFunction hTaken
    refine ⟨(StackCheck.within_behind before).add_pushes_le hFunction hTaken, ?_⟩
    exact hBodies.succ_sinceFunction_le hFunction
  · intro problem hProblem
    rw [StackCheck.stackProblems_eq] at hProblem
    obtain ⟨before, s, after, hSplit, hStep⟩ := StackCheck.exists_of_mem_problems hProblem
    exact ⟨before, s, after, hSplit, hStep,
      (StackCheck.within_behind before).heights_step s problem hStep⟩
  · have hFits : StackCheck.sumsFit {} statements = true :=
      @StackCheck.sumsFit_behind statements [] hBodies
    rw [checkedProblems, if_pos hFits]

/-- The greatest height that is a word. -/
theorem highest_stack_in_range :
    let pushes : List Statement := List.replicate 65535 ⟨⟨"Main.vm", 1⟩, .push .constant 0⟩
    BodiesUpTo 65535 pushes ∧ (StackCheck.behind {} pushes).Within (sinceFunction pushes) ∧
      checkedProblems pushes = some [] := by
  intro pushes
  have hBodies : BodiesUpTo 65535 pushes :=
    bodiesUpTo_of_length_le (Nat.le_of_eq List.length_replicate)
  have hPushes : ∀ s ∈ pushes, ∃ segment index, s.command = .push segment index := by
    intro s hs
    rw [List.eq_of_mem_replicate hs]
    exact ⟨_, _, rfl⟩
  obtain ⟨hBehind, -, -, hChecked⟩ := heights_in_range hBodies
  refine ⟨hBodies, (hBehind pushes [] (List.append_nil _).symm).1, ?_⟩
  rw [hChecked, StackCheck.stackProblems_eq, (StackCheck.behind_pushes hPushes rfl).2]

/-- The number of commands cannot be larger: with one push more a sum wraps. -/
theorem checkedProblems_pushes {pushes : List Statement}
    (hPushes : ∀ s ∈ pushes, ∃ segment index, s.command = .push segment index) :
    checkedProblems pushes = if pushes.length ≤ 65535 then some [] else none := by
  have hStart : ({} : StackCheck).height = some 0 := rfl
  have hNone : stackProblems pushes = [] := by
    rw [StackCheck.stackProblems_eq, (StackCheck.behind_pushes hPushes hStart).2]
  rw [checkedProblems, hNone, StackCheck.sumsFit_pushes hPushes hStart, UInt16.toNat_zero,
    Nat.zero_add]
  simp only [decide_eq_true_iff, Nat.lt_succ_iff]

end HackVm
