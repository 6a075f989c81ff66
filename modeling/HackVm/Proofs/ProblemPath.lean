import Mathlib.Data.List.Induction
import HackVm.Proofs.StackHeight

/-!
# Problems have paths

The check goes through a program once, and knows a height behind a jump only where an earlier
command has brought one.  So whatever it knows was seen on a path: the height at a command is that
of a path which comes to the command (`Comes`), and the height of a label is that of a path to a
command which reaches the label (`Brings`).  This is what every step of the check keeps, as long as
there is no problem and no height wraps (`Traced.step`); a label that is declared once gets its
height from a jump.

* `exists_isBody`: every command of a program stands in a body.
* `Traced.behind`: what the check knows behind a part of a body was seen on paths.
* `first_problem_on_path`: so the first problem of a program is one that a path runs into.
-/

namespace HackVm

open StackCheck

/-! ### Bodies -/

/-- The label that the command declares. -/
def Command.label? : Command → Option String
  | label name => some name
  | _ => none

/-- The labels that a body declares, in order. -/
def bodyLabels (body : List Statement) : List String :=
  body.filterMap (·.command.label?)

/-- The function that the command begins. -/
def Command.begun? : Command → Option String
  | function name _ => some name
  | _ => none

/-- The function that a body belongs to. -/
def bodyFunction (body : List Statement) : String :=
  (body.head?.bind (·.command.begun?)).getD entryPoint

/-- A list ends with a body that is not finished. -/
theorem exists_last_body (statements : List Statement) :
    ∃ before body, statements = before ++ body ∧
      (before = [] ∨ ∃ s ∈ body.head?, s.command.beginsFunction = true) ∧
      ∀ s ∈ body.tail, s.command.beginsFunction = false := by
  induction statements using List.reverseRecOn with
  | nil => exact ⟨[], [], rfl, Or.inl rfl, nofun⟩
  | append_singleton statements s ih =>
    obtain ⟨before, body, rfl, hHead, hTail⟩ := ih
    cases hBegins : s.command.beginsFunction with
    | true => exact ⟨before ++ body, [s], rfl, Or.inr ⟨s, rfl, hBegins⟩, nofun⟩
    | false =>
      refine ⟨before, body ++ [s], List.append_assoc _ _ _, ?_, ?_⟩
      · rcases hHead with hNone | ⟨t, ht, hFunction⟩
        · exact Or.inl hNone
        · exact Or.inr ⟨t, by rw [List.head?_append, ht]; rfl, hFunction⟩
      · intro t ht
        cases body with
        | nil => cases ht
        | cons first rest =>
          rcases List.mem_append.mp ht with hRest | hLast
          · exact hTail t hRest
          · rw [List.mem_singleton.mp hLast]
            exact hBegins

/-- A list begins with what is left of a body. -/
theorem exists_next_body (statements : List Statement) :
    ∃ body after, statements = body ++ after ∧
      (∀ s ∈ body, s.command.beginsFunction = false) ∧
      ∀ s ∈ after.head?, s.command.beginsFunction = true := by
  induction statements with
  | nil => exact ⟨[], [], rfl, nofun, nofun⟩
  | cons s rest ih =>
    cases hBegins : s.command.beginsFunction with
    | true =>
      refine ⟨[], s :: rest, rfl, nofun, ?_⟩
      intro t ht
      rw [← Option.some.inj ht]
      exact hBegins
    | false =>
      obtain ⟨body, after, rfl, hBody, hNext⟩ := ih
      refine ⟨s :: body, after, rfl, ?_, hNext⟩
      intro t ht
      rcases List.mem_cons.mp ht with rfl | hRest
      · exact hBegins
      · exact hBody t hRest

/-- **Every command of a program stands in a body.** -/
theorem exists_isBody (front back : List Statement) (s : Statement) :
    ∃ before lead rest after, front = before ++ lead ∧ back = rest ++ after ∧
      IsBody before (lead ++ s :: rest) after := by
  obtain ⟨before, body, hFront, hHead, hTail⟩ := exists_last_body (front ++ [s])
  obtain ⟨rest, after, rfl, hRest, hNext⟩ := exists_next_body back
  rcases List.eq_nil_or_concat body with rfl | ⟨lead, last, rfl⟩
  · rcases hHead with rfl | ⟨t, ht, -⟩
    · simp at hFront
    · cases ht
  · rw [List.concat_eq_append, ← List.append_assoc] at hFront
    obtain ⟨rfl, hLast⟩ := List.append_inj' hFront rfl
    obtain rfl := List.singleton_inj.mp hLast
    have hSplit : lead ++ s :: rest = (lead.concat s) ++ rest := by simp
    refine ⟨before, lead, rest, after, rfl, rfl, ?_, ?_, hNext⟩
    · rcases hHead with hNone | ⟨t, ht, hFunction⟩
      · exact Or.inl hNone
      · refine Or.inr fun u hu => ?_
        rw [hSplit, List.head?_append, ht] at hu
        rw [← Option.some.inj hu]
        exact hFunction
    · intro t ht
      rw [hSplit, List.tail_append_of_ne_nil (by simp)] at ht
      rcases List.mem_append.mp ht with hLead | hMem
      · exact hTail t hLead
      · exact hRest t hMem

theorem IsBody.eq_zero_of_beginsFunction {before body after : List Statement}
    (hBody : IsBody before body after) {i : Nat} {s : Statement} (hs : body[i]? = some s)
    (hBegins : s.command.beginsFunction = true) : i = 0 := by
  by_contra hPos
  rw [hBody.not_beginsFunction (Nat.pos_of_ne_zero hPos) hs] at hBegins
  cases hBegins

theorem label_unique {body : List Statement} (hOnce : (bodyLabels body).Nodup) {i j : Nat}
    {s t : Statement} {name : String} (hs : body[i]? = some s) (ht : body[j]? = some t)
    (hLabel : s.command = .label name) (hOther : t.command = .label name) : i = j := by
  have hApart := List.pairwise_iff_getElem.mp (List.pairwise_filterMap.mp hOnce)
  have hName : ∀ {u : Statement}, u.command = .label name → u.command.label? = some name := by
    intro u hu
    rw [hu]
    rfl
  obtain ⟨hi, rfl⟩ := List.getElem?_eq_some_iff.mp hs
  obtain ⟨hj, rfl⟩ := List.getElem?_eq_some_iff.mp ht
  rcases Nat.lt_trichotomy i j with hLt | hEq | hGt
  · exact absurd rfl (hApart i j hi hj hLt name (hName hLabel) name (hName hOther))
  · exact hEq
  · exact absurd rfl (hApart j i hj hi hGt name (hName hOther) name (hName hLabel))

/-! ### Paths without an underflow -/

section Paths

variable (body : List Statement)

/-- A path comes to a place with a height, and no command before takes more values than there
are. -/
def Comes (i n : Nat) : Prop :=
  ∃ visits, Path body ((i, (n : Int)) :: visits) ∧
    ∀ visit ∈ visits, ∃ s, body[visit.1]? = some s ∧ (s.command.effect.pops : Int) ≤ visit.2

/-- Such a path comes to a command that jumps to a label, or is the label, with this height. -/
def Brings (i : Nat) (name : String) (n : Nat) : Prop :=
  ∃ s m, body[i]? = some s ∧ (s.command.jump? = some name ∨ s.command = .label name) ∧
    Comes body i m ∧ s.command.effect.pops ≤ m ∧ (n : Int) = s.command.heightAfter m

/-- A problem at a command of a body, with paths that run into it. -/
inductive Genuine (i : Nat) (s : Statement) : StackProblem → Prop
  | underflow {needed available : Word} : (needed : Nat) = s.command.effect.pops →
      Comes body i available → available < needed →
      Genuine i s (.underflow s.position (bodyFunction body) s.command needed available)
  | missingResult : s.command = .ret → Comes body i 0 →
      Genuine i s (.missingResult s.position (bodyFunction body))
  | unequalHeights {j : Nat} {expected found : Word} {name : String} : j < i →
      Brings body j name expected → Brings body i name found → expected ≠ found →
      Genuine i s (.unequalHeights s.position name expected found)

variable {body}

theorem Comes.start (h : body ≠ []) : Comes body 0 0 :=
  ⟨[], .start h, nofun⟩

theorem Comes.step {i j n m : Nat} {s : Statement} (h : Comes body i n) (hs : body[i]? = some s)
    (hEnough : s.command.effect.pops ≤ n) (hFlows : Flows body s.command i j)
    (hj : j < body.length) (hHeight : (m : Int) = s.command.heightAfter n) : Comes body j m := by
  obtain ⟨visits, hPath, hBefore⟩ := h
  refine ⟨(i, (n : Int)) :: visits, ?_, ?_⟩
  · rw [hHeight]
    exact .step hPath hs hFlows hj
  · intro visit hVisit
    rcases List.mem_cons.mp hVisit with rfl | hVisit
    · exact ⟨s, hs, Int.ofNat_le.mpr hEnough⟩
    · exact hBefore visit hVisit

end Paths

/-! ### What a step of the check adds -/

namespace StackCheck

variable {check : StackCheck} {s : Statement} {name : String} {m : Word}

theorem reached_reach {position : Position} {label : String}
    (h : (check.reach position label).1.reached[name]? = some m) :
    check.reached[name]? = some m ∨ (label = name ∧ check.height = some m) := by
  unfold reach at h
  split at h
  · exact Or.inl h
  · next found hHeight =>
    split at h
    · rw [Std.HashMap.getElem?_insert] at h
      split at h
      · next hSame =>
        cases h
        exact Or.inr ⟨eq_of_beq hSame, hHeight⟩
      · exact Or.inl h
    · exact Or.inl h

theorem height_take {needed : Word} (h : (check.take s needed).1.height = some m) :
    ∃ n, check.height = some n ∧ m = Word.minus n needed := by
  unfold take at h
  split at h
  · next hNone =>
    rw [hNone] at h
    cases h
  · next available hHeight =>
    cases h
    exact ⟨available, hHeight, rfl⟩

theorem height_step (h : (check.step s).1.height = some m) :
    s.command.fallsThrough = true ∧
      ∃ n, check.heightAt s.command = some n ∧ m = level s.command n := by
  obtain ⟨position, command⟩ := s
  cases command with
  | function name locals =>
    cases h
    exact ⟨rfl, 0, rfl, rfl⟩
  | label name =>
    refine ⟨rfl, m, ?_, (level_label name m).symm⟩
    cases hKnown : check.height with
    | some found =>
      rw [step_label_of_some hKnown, height_reach, hKnown] at h
      rw [heightAt, hKnown, ← h]
      rfl
    | none =>
      rw [step_label_of_none hKnown] at h
      rw [heightAt, hKnown]
      exact h
  | goto name => cases h
  | ifGoto name =>
    have hTaken : (check.take ⟨position, .ifGoto name⟩ 1).1.height = some m :=
      (height_reach position name).symm.trans h
    obtain ⟨n, hHeight, hLeft⟩ := height_take hTaken
    exact ⟨rfl, n, hHeight, hLeft.trans (level_ifGoto name n).symm⟩
  | ret => cases h
  | _ =>
    obtain ⟨k, hTaken, hMore⟩ := Option.map_eq_some_iff.mp h
    obtain ⟨n, hHeight, hLeft⟩ := height_take hTaken
    exact ⟨rfl, n, hHeight, by rw [← hMore, hLeft]; rfl⟩

/-- A height that a label has behind a statement is older, or the statement reaches the label. -/
theorem reached_step (h : (check.step s).1.reached[name]? = some m) :
    check.reached[name]? = some m ∨
      ((s.command.jump? = some name ∨ s.command = .label name) ∧
        ∃ n, check.heightAt s.command = some n ∧ m = level s.command n) := by
  obtain ⟨position, command⟩ := s
  cases command with
  | function name locals => simp [step] at h
  | label other =>
    cases hKnown : check.height with
    | some found =>
      rw [step_label_of_some hKnown] at h
      rcases reached_reach h with hOld | ⟨rfl, hHeight⟩
      · exact Or.inl hOld
      · refine Or.inr ⟨Or.inr rfl, m, ?_, (level_label other m).symm⟩
        rw [heightAt, hHeight]
        rfl
    | none =>
      rw [step_label_of_none hKnown] at h
      exact Or.inl h
  | goto other =>
    rcases reached_reach h with hOld | ⟨rfl, hHeight⟩
    · exact Or.inl hOld
    · exact Or.inr ⟨Or.inl rfl, m, hHeight, (level_goto other m).symm⟩
  | ifGoto other =>
    rcases reached_reach h with hOld | ⟨rfl, hTaken⟩
    · have hKept : (check.take ⟨position, .ifGoto other⟩ 1).1.reached = check.reached :=
        reached_take 1
      exact Or.inl (hKept ▸ hOld)
    · obtain ⟨n, hHeight, hLeft⟩ := height_take hTaken
      exact Or.inr ⟨Or.inl rfl, n, hHeight, hLeft.trans (level_ifGoto other n).symm⟩
  | ret => exact Or.inl h
  | _ =>
    have hTaken : (check.take _ _).1.reached[name]? = some m := h
    rw [reached_take] at hTaken
    exact Or.inl hTaken

theorem function_step : (check.step s).1.function = s.command.begun?.getD check.function := by
  have hTake : ∀ {needed : Word}, (check.take s needed).1.function = check.function := by
    intro needed
    unfold take
    split <;> rfl
  have hReach : ∀ {check : StackCheck} {position : Position} {name : String},
      (check.reach position name).1.function = check.function := by
    intro check position name
    unfold reach
    split
    · rfl
    · split <;> rfl
  obtain ⟨position, command⟩ := s
  cases command with
  | function name locals => rfl
  | label name =>
    cases hKnown : check.height with
    | some found =>
      rw [step_label_of_some hKnown]
      exact hReach
    | none =>
      rw [step_label_of_none hKnown]
      rfl
  | goto name => exact hReach
  | ifGoto name => exact hReach.trans hTake
  | ret => rfl
  | _ => exact hTake

/-! ### What a step of the check reports -/

/-- A problem that a statement has, by what the check knows when it comes to the statement. -/
inductive Reports (check : StackCheck) (s : Statement) : StackProblem → Prop
  | underflow {needed n : Word} : (needed : Nat) = s.command.effect.pops →
      check.heightAt s.command = some n → n < needed →
      Reports check s (.underflow s.position check.function s.command needed n)
  | missingResult : s.command = .ret → check.heightAt s.command = some 0 →
      Reports check s (.missingResult s.position check.function)
  | unequalHeights {n expected found : Word} {name : String} :
      s.command.jump? = some name ∨ s.command = .label name → check.heightAt s.command = some n →
      s.command.effect.pops ≤ (n : Nat) → found = level s.command n →
      check.reached[name]? = some expected → expected ≠ found →
      Reports check s (.unequalHeights s.position name expected found)

theorem take_reports {needed : Word} {problem : StackProblem}
    (h : problem ∈ (check.take s needed).2) :
    ∃ n, check.height = some n ∧ n < needed ∧
      problem = .underflow s.position check.function s.command needed n := by
  unfold take at h
  split at h
  · cases h
  · next available hHeight =>
    split at h
    · next hFew =>
      exact ⟨available, hHeight, hFew, List.mem_singleton.mp h⟩
    · cases h

theorem reach_reports {position : Position} {label : String} {problem : StackProblem}
    (h : problem ∈ (check.reach position label).2) :
    ∃ found expected, check.height = some found ∧ check.reached[label]? = some expected ∧
      expected ≠ found ∧ problem = .unequalHeights position label expected found := by
  unfold reach at h
  split at h
  · cases h
  · next found hHeight =>
    split at h
    · cases h
    · next expected hReached =>
      split at h
      · cases h
      · next hUnequal =>
        exact ⟨found, expected, hHeight, hReached, hUnequal, List.mem_singleton.mp h⟩

theorem step_reports {problem : StackProblem} (h : (check.step s).2.head? = some problem) :
    check.Reports s problem := by
  obtain ⟨position, command⟩ := s
  cases command with
  | function name locals => cases h
  | label name =>
    cases hKnown : check.height with
    | some n =>
      rw [step_label_of_some hKnown] at h
      obtain ⟨found, expected, hHeight, hReached, hUnequal, rfl⟩ :=
        reach_reports (List.mem_of_mem_head? h)
      refine .unequalHeights (Or.inr rfl) ?_ (Nat.zero_le _) (level_label name found).symm
        hReached hUnequal
      rw [heightAt, hHeight]
      rfl
    | none =>
      rw [step_label_of_none hKnown] at h
      cases h
  | goto name =>
    obtain ⟨found, expected, hHeight, hReached, hUnequal, rfl⟩ :=
      reach_reports (List.mem_of_mem_head? h)
    exact .unequalHeights (Or.inl rfl) hHeight (Nat.zero_le _) (level_goto name found).symm
      hReached hUnequal
  | ifGoto name =>
    have hBoth : ((check.take ⟨position, .ifGoto name⟩ 1).2 ++
        ((check.take ⟨position, .ifGoto name⟩ 1).1.reach position name).2).head? =
          some problem := h
    rw [List.head?_append] at hBoth
    cases hTake : (check.take ⟨position, .ifGoto name⟩ 1).2.head? with
    | some first =>
      rw [hTake] at hBoth
      obtain rfl := Option.some.inj hBoth
      obtain ⟨n, hHeight, hFew, rfl⟩ := take_reports (List.mem_of_mem_head? hTake)
      exact .underflow rfl hHeight hFew
    | none =>
      rw [hTake] at hBoth
      obtain ⟨found, expected, hTaken, hReached, hUnequal, rfl⟩ :=
        reach_reports (List.mem_of_mem_head? hBoth)
      rw [reached_take] at hReached
      obtain ⟨n, hHeight, hLeft⟩ := height_take hTaken
      obtain ⟨hEnough, -⟩ := take_known hHeight (List.head?_eq_none_iff.mp hTake)
      exact .unequalHeights (Or.inl rfl) hHeight (UInt16.le_iff_toNat_le.mp hEnough)
        (hLeft.trans (level_ifGoto name n).symm) hReached hUnequal
  | ret =>
    rw [step] at h
    simp only at h
    split at h
    · next hMissing =>
      cases h
      exact .missingResult rfl hMissing
    · cases h
  | _ =>
    obtain ⟨n, hHeight, hFew, rfl⟩ := take_reports (List.mem_of_mem_head? h)
    exact .underflow (toNat_pops _) hHeight hFew

theorem sumFits_of_reaches (h : s.command.jump? = some name ∨ s.command = .label name) :
    check.sumFits s.command = true := by
  have hPushes : s.command.beginsFunction = false ∧ s.command.effect.pushes = 0 := by
    rcases h with hJump | hLabel
    · cases hCommand : s.command with
      | goto other => exact ⟨rfl, rfl⟩
      | ifGoto other => exact ⟨rfl, rfl⟩
      | _ => rw [hCommand] at hJump; cases hJump
    · rw [hLabel]
      exact ⟨rfl, rfl⟩
  rw [sumFits_eq hPushes.1, hPushes.2]
  exact Option.all_eq_true _ _ |>.mpr fun n _ => decide_eq_true (UInt16.toNat_lt _)

theorem exists_first_problem {problem : StackProblem} {rest : List StackProblem}
    {statements : List Statement} : ∀ {check : StackCheck},
      check.problems statements = problem :: rest →
        ∃ front s back, statements = front ++ s :: back ∧ check.problems front = [] ∧
          ((check.behind front).step s).2.head? = some problem := by
  induction statements with
  | nil => intro check h; cases h
  | cons s statements ih =>
    intro check h
    rw [problems] at h
    cases hStep : (check.step s).2 with
    | nil =>
      rw [hStep, List.nil_append] at h
      obtain ⟨front, t, back, rfl, hClean, hProblem⟩ := ih h
      refine ⟨s :: front, t, back, rfl, ?_, hProblem⟩
      rw [problems, hStep, hClean]
      rfl
    | cons first others =>
      rw [hStep] at h
      refine ⟨[], s, statements, rfl, rfl, ?_⟩
      obtain ⟨rfl, -⟩ := List.cons.inj h
      exact congrArg List.head? hStep

end StackCheck

/-! ### What the check knows was seen on a path -/

/-- What the check knows in front of a place of a body was seen on paths. -/
structure Traced (body : List Statement) (i : Nat) (check : StackCheck) : Prop where
  function : check.function = bodyFunction (body.take i)
  height : ∀ {n : Word}, check.height = some n → i < body.length → Comes body i n
  reached : ∀ {name : String} {n : Word}, check.reached[name]? = some n →
    ∃ j < i, Brings body j name n

section Body

variable {body : List Statement} {i : Nat} {check : StackCheck} {s : Statement}

theorem begun?_of_not (h : s.command.beginsFunction = false) : s.command.begun? = none := by
  cases hCommand : s.command with
  | function name locals =>
    rw [hCommand] at h
    cases h
  | _ => rfl

/-- A function may begin at the first command of a body only. -/
theorem bodyFunction_take (hs : body[i]? = some s)
    (hBegins : s.command.beginsFunction = true → i = 0) :
    bodyFunction (body.take (i + 1)) = s.command.begun?.getD (bodyFunction (body.take i)) ∧
      bodyFunction (body.take (i + 1)) = bodyFunction body := by
  refine ⟨?_, by simp [bodyFunction, List.head?_take]⟩
  rcases Nat.eq_zero_or_pos i with rfl | hPos
  · rw [bodyFunction, List.head?_take, if_neg (by simp), List.head?_eq_getElem?, hs]
    rfl
  · have hInner : s.command.beginsFunction = false := by
      cases hCommand : s.command.beginsFunction with
      | false => rfl
      | true => exact absurd (hBegins hCommand) (Nat.ne_of_gt hPos)
    rw [begun?_of_not hInner, Option.getD_none, bodyFunction, bodyFunction, List.head?_take,
      List.head?_take, if_neg (by simp), if_neg (Nat.ne_of_gt hPos)]

variable (hOnce : (bodyLabels body).Nodup) (hs : body[i]? = some s)
  (hBegins : s.command.beginsFunction = true → i = 0)

include hOnce hs hBegins

/-- **The height with which the check comes to a command** is that of a path.  Behind a jump only a
label has one, and it was brought by another jump: the label itself stands here. -/
theorem Traced.comes (h : Traced body i check) {n : Word}
    (hHeight : check.heightAt s.command = some n) : Comes body i n := by
  obtain ⟨hi, -⟩ := List.getElem?_eq_some_iff.mp hs
  cases hCommand : s.command with
  | function name locals =>
    rw [hCommand] at hHeight hBegins
    cases hHeight
    rw [hBegins rfl] at hi ⊢
    exact .start (List.ne_nil_of_length_pos hi)
  | label name =>
    rw [hCommand, heightAt] at hHeight
    cases hKnown : check.height with
    | some found =>
      rw [hKnown] at hHeight
      cases hHeight
      exact h.height hKnown hi
    | none =>
      rw [hKnown] at hHeight
      obtain ⟨j, hLt, t, m, ht, hJump | hLabel, hComes, hEnough, hBrought⟩ := h.reached hHeight
      · exact hComes.step ht hEnough (Or.inr ⟨name, hJump, s, hs, hCommand⟩) hi hBrought
      · exact absurd (label_unique hOnce ht hs hLabel hCommand) (Nat.ne_of_lt hLt)
  | _ =>
    rw [hCommand] at hHeight
    exact h.height hHeight hi

/-- A statement without a problem leads from paths to paths, if its sum is a word. -/
theorem Traced.step (h : Traced body i check) (hClean : (check.step s).2 = [])
    (hFits : check.sumFits s.command = true) : Traced body (i + 1) (check.step s).1 := by
  constructor
  · rw [(bodyFunction_take hs hBegins).1, function_step, h.function]
  · intro m hHeight hNext
    obtain ⟨hFalls, n, hHere, rfl⟩ := height_step hHeight
    obtain ⟨hEnough, -⟩ := step_known hClean hHere
    exact (h.comes hOnce hs hBegins hHere).step hs hEnough (Or.inl ⟨hFalls, rfl⟩) hNext
      (heightAfter_eq_level hFits hHere hEnough).symm
  · intro name m hReached
    rcases reached_step hReached with hOld | ⟨hReaches, n, hHere, rfl⟩
    · obtain ⟨j, hLt, hBrings⟩ := h.reached hOld
      exact ⟨j, Nat.lt_succ_of_lt hLt, hBrings⟩
    · obtain ⟨hEnough, -⟩ := step_known hClean hHere
      exact ⟨i, Nat.lt_succ_self i, s, n, hs, hReaches, h.comes hOnce hs hBegins hHere, hEnough,
        (heightAfter_eq_level hFits hHere hEnough).symm⟩

theorem Traced.genuine (h : Traced body i check) {problem : StackProblem}
    (hProblem : (check.step s).2.head? = some problem) : Genuine body i s problem := by
  have hFunction : s.command.begun? = none → check.function = bodyFunction body := by
    intro hInner
    obtain ⟨hNext, hBody⟩ := bodyFunction_take hs hBegins
    rw [h.function, ← hBody, hNext, hInner, Option.getD_none]
  have hInner : s.command.effect.pops ≠ 0 → s.command.begun? = none := by
    intro hPops
    cases hCommand : s.command with
    | function name locals =>
      rw [hCommand] at hPops
      exact absurd rfl hPops
    | _ => rfl
  cases step_reports hProblem with
  | underflow hNeeded hHeight hFew =>
    have hLess := UInt16.lt_iff_toNat_lt.mp hFew
    rw [hFunction (hInner (by omega))]
    exact .underflow hNeeded (h.comes hOnce hs hBegins hHeight) hFew
  | missingResult hRet hHeight =>
    rw [hFunction (by rw [hRet]; rfl)]
    exact .missingResult hRet (h.comes hOnce hs hBegins hHeight)
  | @unequalHeights n expected found name hReaches hHeight hEnough hFound hReached hUnequal =>
    obtain ⟨j, hLt, hBrings⟩ := h.reached hReached
    have hComes := h.comes hOnce hs hBegins hHeight
    have hSame : ((found : Nat) : Int) = s.command.heightAfter (n : Nat) := by
      have hFits : check.sumFits s.command = true := sumFits_of_reaches hReaches
      rw [hFound, heightAfter_eq_level hFits hHeight hEnough]
    exact .unequalHeights hLt hBrings ⟨s, _, hs, hReaches, hComes, hEnough, hSame⟩ hUnequal

end Body

/-- **What the check knows** behind a part of a body without problems was seen on paths. -/
theorem Traced.behind {before body after : List Statement} (hBody : IsBody before body after)
    (hOnce : (bodyLabels body).Nodup) {i : Nat} (hi : i < body.length) :
    problems {} (body.take i) = [] → StackCheck.sumsFit {} (body.take i) = true →
      Traced body i (StackCheck.behind {} (body.take i)) := by
  induction i with
  | zero =>
    intro _ _
    refine ⟨rfl, fun hHeight _ => ?_, fun hReached => ?_⟩
    · cases hHeight
      exact .start (List.ne_nil_of_length_pos hi)
    · simp [StackCheck.behind] at hReached
  | succ i ih =>
    intro hClean hFits
    have hs : body[i]? = some body[i] := List.getElem?_eq_getElem (by omega)
    rw [List.take_add_one, hs] at hClean hFits
    have hFit : ((StackCheck.behind {} (body.take i)).sumFits body[i].command) = true :=
      sumFits_of_sumsFit hFits
    rw [problems_append] at hClean
    rw [sumsFit_append, Bool.and_eq_true] at hFits
    obtain ⟨hBefore, hHere⟩ := List.append_eq_nil_iff.mp hClean
    have hStep : ((StackCheck.behind {} (body.take i)).step body[i]).2 = [] :=
      (List.append_eq_nil_iff.mp hHere).1
    rw [List.take_add_one, hs, behind_append]
    exact (ih (by omega) hBefore hFits.1).step hOnce hs (hBody.eq_zero_of_beginsFunction hs)
      hStep hFit

theorem IsBody.problems_take {before body after : List Statement} (hBody : IsBody before body after)
    (i : Nat) : (StackCheck.behind {} before).problems (body.take i) = problems {} (body.take i) := by
  rcases hBody.head with rfl | hHead
  · rfl
  · rcases body with _ | ⟨s, body⟩
    · rw [List.take_nil]
      rfl
    · cases i with
      | zero => rfl
      | succ i => exact problems_of_beginsFunction (hHead s rfl)

/-- What is reported at a command of a body, with no problem before, has its paths. -/
theorem IsBody.genuine {before body after : List Statement} (hBody : IsBody before body after)
    (hOnce : (bodyLabels body).Nodup) {i : Nat} {s : Statement} (hs : body[i]? = some s)
    {problem : StackProblem} (hClean : problems {} (before ++ body.take i) = [])
    (hProblem : (problems {} (before ++ body.take (i + 1))).head? = some problem)
    (hFits : StackCheck.sumsFit {} (body.take i) = true) : Genuine body i s problem := by
  obtain ⟨hi, -⟩ := List.getElem?_eq_some_iff.mp hs
  rw [problems_append, hBody.problems_take] at hClean hProblem
  obtain ⟨hBefore, hLead⟩ := List.append_eq_nil_iff.mp hClean
  rw [hBefore, List.nil_append, List.take_add_one, hs, problems_append, hLead] at hProblem
  have hStep : (((StackCheck.behind {} (body.take i)).step s).2 ++ []).head? = some problem :=
    hProblem
  rw [List.append_nil] at hStep
  exact (Traced.behind hBody hOnce hi hLead hFits).genuine hOnce hs
    (hBody.eq_zero_of_beginsFunction hs) hStep

/-- **The first problem is one that a path runs into.**  Where no body declares a label twice, the
first problem of a program is reported at a command of a body.  If no height wraps in the body
before it, a path through the body comes to the command with the height that the problem tells,
without an underflow before; and a label with two heights is reached by two such paths, one with
each. -/
theorem first_problem_on_path {statements : List Statement} {problem : StackProblem}
    {rest : List StackProblem}
    (hOnce : ∀ before body after, statements = before ++ body ++ after →
      IsBody before body after → (bodyLabels body).Nodup)
    (hFirst : stackProblems statements = problem :: rest) :
    ∃ before body after i s, statements = before ++ body ++ after ∧ IsBody before body after ∧
      body[i]? = some s ∧ stackProblems (before ++ body.take i) = [] ∧
      (stackProblems (before ++ body.take (i + 1))).head? = some problem ∧
      (StackCheck.sumsFit {} (body.take i) = true → Genuine body i s problem) := by
  have hProblems : ∀ list, stackProblems list = problems {} list := fun list => by
    rw [stackProblems, toList_follow]
    rfl
  rw [hProblems] at hFirst
  obtain ⟨front, s, back, rfl, hClean, hProblem⟩ := exists_first_problem hFirst
  obtain ⟨before, lead, tail, after, rfl, rfl, hBody⟩ := exists_isBody front back s
  have hSplit : before ++ lead ++ s :: (tail ++ after) =
      before ++ (lead ++ s :: tail) ++ after := by simp
  have hs : (lead ++ s :: tail)[lead.length]? = some s := by simp
  have hLead : (lead ++ s :: tail).take lead.length = lead := List.take_left
  have hNext : (lead ++ s :: tail).take (lead.length + 1) = lead ++ [s] := by
    rw [List.take_add_one, hLead, hs]
    rfl
  have hHead : (problems {} (before ++ (lead ++ [s]))).head? = some problem := by
    rw [← List.append_assoc, problems_append, hClean, List.nil_append, problems, problems,
      List.append_nil]
    exact hProblem
  refine ⟨before, lead ++ s :: tail, after, lead.length, s, hSplit, hBody, hs, ?_, ?_, ?_⟩
  · rw [hLead, hProblems]
    exact hClean
  · rw [hNext, hProblems]
    exact hHead
  · refine hBody.genuine (hOnce _ _ _ hSplit hBody) hs ?_ ?_
    · rw [hLead]
      exact hClean
    · rw [hNext]
      exact hHead

/-- A loop that leaves a value on the stack each time it goes round. -/
def growingLoop : List Statement :=
  [⟨⟨"Foo.vm", 1⟩, .function "Foo.loop" 0⟩, ⟨⟨"Foo.vm", 2⟩, .push .constant 1⟩,
    ⟨⟨"Foo.vm", 3⟩, .label "TOP"⟩, ⟨⟨"Foo.vm", 4⟩, .push .constant 2⟩,
    ⟨⟨"Foo.vm", 5⟩, .goto "TOP"⟩]

/-- Paths come to the label of such a loop with two heights. -/
theorem growing_loop_on_path :
    (bodyLabels growingLoop).Nodup ∧ StackCheck.sumsFit {} growingLoop = true ∧
      stackProblems growingLoop = [.unequalHeights ⟨"Foo.vm", 5⟩ "TOP" 1 2] ∧
      ∃ before body after i s, growingLoop = before ++ body ++ after ∧ IsBody before body after ∧
        body[i]? = some s ∧ Genuine body i s (.unequalHeights ⟨"Foo.vm", 5⟩ "TOP" 1 2) := by
  have hLabels : (bodyLabels growingLoop).Nodup := by decide
  have hFits : StackCheck.sumsFit {} growingLoop = true := by
    simp [growingLoop, StackCheck.sumsFit, StackCheck.sumFits, StackCheck.step, StackCheck.reach,
      StackCheck.take, Command.effect, Word.minus]
  have hFirst : stackProblems growingLoop = [.unequalHeights ⟨"Foo.vm", 5⟩ "TOP" 1 2] := by
    simp [stackProblems, growingLoop, StackCheck.follow, StackCheck.step, StackCheck.reach,
      StackCheck.take, Command.effect, Word.minus]
  have hOnce : ∀ before body after, growingLoop = before ++ body ++ after →
      IsBody before body after → (bodyLabels body).Nodup := by
    intro before body after hSplit _
    have hParts : bodyLabels growingLoop =
        bodyLabels before ++ bodyLabels body ++ bodyLabels after := by
      rw [hSplit]
      simp [bodyLabels]
    rw [hParts] at hLabels
    exact (List.nodup_append.mp (List.nodup_append.mp hLabels).1).2.1
  obtain ⟨before, body, after, i, s, hSplit, hBody, hs, -, -, hGenuine⟩ :=
    first_problem_on_path hOnce hFirst
  refine ⟨hLabels, hFits, hFirst, before, body, after, i, s, hSplit, hBody, hs, hGenuine ?_⟩
  rw [hSplit, sumsFit_append, sumsFit_append, Bool.and_eq_true, Bool.and_eq_true,
    sumsFit_body hBody] at hFits
  exact sumsFit_take hFits.1.2 i

end HackVm
