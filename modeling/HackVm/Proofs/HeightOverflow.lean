import HackVm.Proofs.HeightRange

/-!
# Heights that wrap

The answers of the check are right as long as its sums are words (`checked_height_sound`,
`first_problem_on_path`), and a check whose sums are checked gives no other answer.  Where sums wrap
the condition is needed.  A push raises the height by one, so behind 65536 pushes the check is back
at the height that it had in front of them, while a path has 65536 values more.

* `sumsFit_of_checkedProblems`: an answer with checked sums meets the condition.
* `comes_pushes`: what a path has behind pushes.
* `growth_unseen`: a loop that goes round with 65536 values more has no problem.
* `full_stack_underflow`: a value that is popped behind 65536 pushes is reported as missing.
-/

namespace HackVm

open StackCheck

/-- Where checked sums give an answer, it is the answer of the check, and no sum of a body wraps. -/
theorem sumsFit_of_checkedProblems {before body after : List Statement}
    (hBody : IsBody before body after) {problems : List StackProblem}
    (h : checkedProblems (before ++ body ++ after) = some problems) :
    stackProblems (before ++ body ++ after) = problems ∧ sumsFit {} body = true := by
  rw [checkedProblems] at h
  split at h
  · next hFits =>
    rw [sumsFit_append, sumsFit_append, sumsFit_body hBody, Bool.and_eq_true,
      Bool.and_eq_true] at hFits
    exact ⟨Option.some.inj h, hFits.1.2⟩
  · cases h

/-! ### Known heights -/

theorem StackCheck.step_isSome {check : StackCheck} {s : Statement}
    (hFalls : s.command.fallsThrough = true) (h : check.height.isSome = true) :
    (check.step s).1.height.isSome = true := by
  obtain ⟨found, hKnown⟩ := Option.isSome_iff_exists.mp h
  obtain ⟨position, command⟩ := s
  have hTake : ∀ needed, (check.take ⟨position, command⟩ needed).1.height.isSome = true := by
    intro needed
    rw [take, hKnown]
    rfl
  cases command with
  | function name locals => rfl
  | label name =>
    rw [step_label_of_some hKnown, height_reach]
    exact h
  | goto name => cases hFalls
  | ifGoto name =>
    show ((check.take _ 1).1.reach position name).1.height.isSome = true
    rw [height_reach]
    exact hTake 1
  | ret => cases hFalls
  | _ => exact (Option.isSome_map).trans (hTake _)

theorem StackCheck.behind_isSome {statements : List Statement} : ∀ {check : StackCheck},
    (∀ s ∈ statements, s.command.fallsThrough = true) → check.height.isSome = true →
      (check.behind statements).height.isSome = true := by
  induction statements with
  | nil => exact fun _ h => h
  | cons s rest ih =>
    intro check hFalls h
    obtain ⟨hFirst, hRest⟩ := List.forall_mem_cons.mp hFalls
    exact ih hRest (step_isSome hFirst h)

/-- The check knows the height at each command behind commands that may be followed. -/
theorem checkedHeight_isSome (front : List Statement) {last : Statement}
    (hFalls : ∀ s ∈ front, s.command.fallsThrough = true) {i : Nat} (hi : i ≤ front.length) :
    (checkedHeight [] (front ++ [last]) i).isSome = true := by
  have hKnown : (behind {} ((front ++ [last]).take i)).height.isSome = true := by
    rw [List.take_append_of_le_length hi]
    exact behind_isSome (fun s hs => hFalls s (List.mem_of_mem_take hs)) rfl
  have hLt : i < (front ++ [last]).length := by simpa using Nat.lt_succ_of_le hi
  rw [checkedHeight_eq (List.getElem?_eq_getElem hLt), List.nil_append]
  obtain ⟨n, hn⟩ := Option.isSome_iff_exists.mp hKnown
  cases hBegins : (front ++ [last])[i].command with
  | function name locals => rfl
  | _ => rw [heightAt_of_height rfl hn]; rfl

theorem Path.lt_length {body : List Statement} {visits : List (Nat × Int)} (h : Path body visits) :
    ∀ visit ∈ visits, visit.1 < body.length := by
  induction h with
  | start hFull =>
    intro visit hMem
    rw [List.mem_singleton.mp hMem]
    exact List.length_pos_iff.mpr hFull
  | step _ _ _ hj ih =>
    intro visit hMem
    rcases List.mem_cons.mp hMem with rfl | hMem
    · exact hj
    · exact ih visit hMem

section Pushes

variable {pushes : List Statement}
  (hPushes : ∀ s ∈ pushes, ∃ segment index, s.command = .push segment index)

include hPushes

/-! ### Paths through pushes -/

theorem exists_push (front rest : List Statement) {i : Nat} (hi : i < pushes.length) :
    ∃ s segment index, (front ++ (pushes ++ rest))[front.length + i]? = some s ∧
      s.command = .push segment index := by
  obtain ⟨segment, index, hs⟩ := hPushes pushes[i] (List.getElem_mem hi)
  refine ⟨pushes[i], segment, index, ?_, hs⟩
  rw [List.getElem?_append_right (Nat.le_add_right _ _), Nat.add_sub_cancel_left,
    List.getElem?_append_left hi, List.getElem?_eq_getElem hi]

theorem comes_pushes (front : List Statement) {rest : List Statement} {k : Nat}
    (h : Comes (front ++ (pushes ++ rest)) front.length k) (hRest : rest ≠ []) :
    ∀ {i}, i ≤ pushes.length → Comes (front ++ (pushes ++ rest)) (front.length + i) (k + i) := by
  have hLength : 0 < rest.length := List.length_pos_iff.mpr hRest
  intro i
  induction i with
  | zero => exact fun _ => h
  | succ i ih =>
    intro hi
    obtain ⟨s, segment, index, hs, hPush⟩ := exists_push hPushes front rest hi
    refine (ih (Nat.le_of_succ_le hi)).step hs ?_ (Or.inl ⟨?_, rfl⟩) ?_ ?_
    · rw [hPush]
      exact Nat.zero_le _
    · rw [hPush]
      rfl
    · simp only [List.length_append]
      omega
    · rw [hPush]
      show ((k + (i + 1) : Nat) : Int) = ((k + i : Nat) : Int) - 0 + 1
      omega

/-- There is one path through pushes to a last command that does not jump. -/
theorem path_pushes {last : Statement} (hLast : last.command.jump? = none)
    {visits : List (Nat × Int)} (hPath : Path (pushes ++ [last]) visits) :
    ∀ visit ∈ visits, visit.2 = visit.1 := by
  induction hPath with
  | start _ =>
    intro visit hMem
    rw [List.mem_singleton.mp hMem]
    rfl
  | @step i j height visits s hPath hs hFlows hj ih =>
    intro visit hMem
    rcases List.mem_cons.mp hMem with rfl | hMem
    · have hHere : height = i := ih (i, height) List.mem_cons_self
      have hInner : i < pushes.length → ∃ segment index, s.command = .push segment index := by
        intro hi
        obtain ⟨t, segment, index, ht, hPush⟩ :=
          exists_push hPushes [] [last] hi
        rw [List.length_nil, Nat.zero_add, List.nil_append] at ht
        rw [Option.some.inj (hs.symm.trans ht)]
        exact ⟨segment, index, hPush⟩
      have hEnd : pushes.length ≤ i → s = last := by
        intro hi
        rw [List.getElem?_append_right hi] at hs
        exact List.mem_singleton.mp (List.mem_of_getElem? hs)
      rw [List.length_append, List.length_singleton] at hj
      rcases hFlows with ⟨-, rfl⟩ | ⟨name, hJump, -⟩
      · obtain ⟨segment, index, hPush⟩ := hInner (by omega)
        rw [hPush, hHere]
        show (i : Int) - 0 + 1 = ((i + 1 : Nat) : Int)
        omega
      · rcases Nat.lt_or_ge i pushes.length with hi | hi
        · obtain ⟨segment, index, hPush⟩ := hInner hi
          rw [hPush] at hJump
          cases hJump
        · rw [hEnd hi, hLast] at hJump
          cases hJump
    · exact ih visit hMem

/-! ### A height lost -/

variable (hLength : pushes.length = 65536)

include hLength

/-- Behind 65536 pushes the check is where it was. -/
theorem StackCheck.behind_full {check : StackCheck} {h : Word} (hHeight : check.height = some h) :
    check.behind pushes = check := by
  have hZero : UInt16.ofNat pushes.length = 0 := by
    rw [hLength]
    rfl
  rw [(behind_pushes hPushes hHeight).1, hZero, UInt16.add_zero, ← hHeight]

theorem StackCheck.sumsFit_full {check : StackCheck} {h : Word}
    (hHeight : check.height = some h) : check.sumsFit pushes = false := by
  rw [sumsFit_pushes hPushes hHeight, hLength]
  exact decide_eq_false (by omega)

/-- **A growing loop without a problem.**  Behind 65536 pushes the check knows the height zero, and
jumps back to a label that had this height.  A path that comes there has 65536 values. -/
theorem growth_unseen (first last : Position) (name : String) :
    let body := ⟨first, .label name⟩ :: (pushes ++ [⟨last, .goto name⟩])
    stackProblems body = [] ∧ checkedProblems body = none ∧
      ∃ visits, Path body visits ∧
        (∀ visit ∈ visits, (checkedHeight [] body visit.1).isSome = true) ∧
          ∃ visit ∈ visits, checkedHeight [] body visit.1 = some 0 ∧ visit.2 = 65536 := by
  intro body
  let start : StackCheck := (step {} ⟨first, .label name⟩).1
  have hHeight : start.height = some 0 := height_reach first name
  have hReached : start.reached[name]? = some 0 := by simp [start, step, reach]
  refine ⟨?_, ?_, ?_⟩
  · have hSplit : stackProblems body =
        (step {} ⟨first, .label name⟩).2 ++ start.problems (pushes ++ [⟨last, .goto name⟩]) :=
      stackProblems_eq body
    have hStart : (step {} ⟨first, .label name⟩).2 = [] := by simp [step, reach]
    have hBack : start.problems [⟨last, .goto name⟩] = [] := by
      simp [problems, step, reach, hHeight, hReached]
    rw [hSplit, hStart, problems_append, (behind_pushes hPushes hHeight).2,
      behind_full hPushes hLength hHeight, hBack]
    rfl
  · have hFits : sumsFit {} body = false := by
      show (_ && start.sumsFit (pushes ++ [⟨last, .goto name⟩])) = false
      rw [sumsFit_append, sumsFit_full hPushes hLength hHeight, Bool.false_and, Bool.and_false]
    rw [checkedProblems, hFits]
    rfl
  · have hFirst : Comes body 0 0 := .start (List.cons_ne_nil _ _)
    have hTop : Comes body 1 0 :=
      hFirst.step rfl (Nat.zero_le 0) (Or.inl ⟨rfl, rfl⟩) (by simp [body]) rfl
    obtain ⟨visits, hPath, -⟩ :=
      comes_pushes hPushes [⟨first, .label name⟩] hTop (List.cons_ne_nil _ _) (Nat.le_refl _)
    have hGoto : body[1 + pushes.length]? = some ⟨last, .goto name⟩ := by
      simp [body, Nat.add_comm 1]
    have hRound := hPath.step hGoto (Or.inr ⟨name, rfl, ⟨first, .label name⟩, rfl, rfl⟩)
      (Nat.succ_pos _)
    refine ⟨_, hRound, fun visit hVisit => ?_, _, List.mem_cons_self, rfl, ?_⟩
    · refine checkedHeight_isSome (⟨first, .label name⟩ :: pushes) ?_ ?_
      · intro s hs
        rcases List.mem_cons.mp hs with rfl | hs
        · rfl
        · obtain ⟨segment, index, hPush⟩ := hPushes s hs
          rw [hPush]
          rfl
      · exact Nat.le_of_lt_succ (by simpa [body] using hRound.lt_length visit hVisit)
    · show ((0 + pushes.length : Nat) : Int) - 0 + 0 = 65536
      omega

/-- **A problem without a path.**  Behind 65536 pushes the check knows the height zero, and reports
a command that takes a value, which is there on the only path. -/
theorem full_stack_underflow (last : Position) (segment : Segment) (index : Word) :
    let body := pushes ++ [⟨last, .pop segment index⟩]
    stackProblems body = [.underflow last entryPoint (.pop segment index) 1 0] ∧
      checkedProblems body = none ∧ ∀ i s, body[i]? = some s →
        ¬ Genuine body i s (.underflow last entryPoint (.pop segment index) 1 0) := by
  intro body
  have hHeight : ({} : StackCheck).height = some 0 := rfl
  refine ⟨?_, ?_, ?_⟩
  · rw [stackProblems_eq, problems_append, (behind_pushes hPushes hHeight).2,
      behind_full hPushes hLength hHeight]
    rfl
  · rw [checkedProblems, sumsFit_append, sumsFit_full hPushes hLength hHeight]
    rfl
  · intro i s hs hGenuine
    generalize hProblem : StackProblem.underflow last entryPoint (.pop segment index) 1 0 =
      problem at hGenuine
    cases hGenuine with
    | underflow _ hComes _ =>
      obtain ⟨-, -, hCommand, -, hAvailable⟩ := StackProblem.underflow.inj hProblem
      obtain ⟨visits, hPath, -⟩ := hComes
      have hCount := path_pushes hPushes rfl hPath _ List.mem_cons_self
      rw [← hAvailable] at hCount
      -- No value is there at the first command only, and this one is a push.
      have hFirst : i = 0 := Int.ofNat_inj.mp hCount.symm
      obtain ⟨t, other, number, ht, hPush⟩ :=
        exists_push hPushes [] [⟨last, .pop segment index⟩] (i := 0) (by omega)
      rw [hFirst] at hs
      obtain rfl := Option.some.inj (ht.symm.trans hs)
      rw [hPush] at hCommand
      cases hCommand
    | missingResult _ _ => cases hProblem
    | unequalHeights _ _ _ _ => cases hProblem

end Pushes

end HackVm
