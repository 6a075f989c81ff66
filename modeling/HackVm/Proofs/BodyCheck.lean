import Mathlib.Data.List.SplitBy
import HackVm.Program
import HackVm.Proofs.ProblemPath

/-!
# Functions are checked by themselves

A `function` resets all that the check knows: the name under which it reports, the height and the
heights of the labels.  So whatever stands in front of a function, the problems from there on are
those of a program that begins with the function (`stackProblems_append`).

* `bodiesOf`: a program cut into its bodies, in front of each `function`.  A body may go on in
  the next file.
* `stackProblems_flatten`: the problems of bodies one after the other, in whatever order they stand.
* `functions_checked_apart`: all of this in one statement.
-/

namespace HackVm

open StackCheck

/-! ### A list of lists -/

section Cut

variable {α : Type} {P : α → Prop}

theorem isChain_right_iff {list : List α} :
    (list.IsChain fun _ b => P b) ↔ ∀ b ∈ list.tail, P b := by
  cases list with
  | nil => simp
  | cons a list =>
    induction list generalizing a with
    | nil => simp
    | cons b list ih =>
      rw [List.isChain_cons_cons, ih b]
      exact List.forall_mem_cons.symm

theorem head?_flatten_of_forall {lists : List (List α)}
    (h : ∀ list ∈ lists, ∀ a ∈ list.head?, P a) : ∀ a ∈ lists.flatten.head?, P a := by
  intro a ha
  obtain ⟨list, hMem, hHead⟩ := List.exists_of_findSome?_eq_some (List.head?_flatten ▸ ha)
  exact h list hMem a hHead

end Cut

/-! ### Bodies -/

/-- The bodies of a program, in order. -/
def bodiesOf (statements : List Statement) : List (List Statement) :=
  statements.splitBy fun _ s => !s.command.beginsFunction

theorem flatten_bodiesOf (statements : List Statement) :
    (bodiesOf statements).flatten = statements :=
  List.flatten_splitBy _ _

theorem beginsFunction_of_mem_tail {statements body : List Statement}
    (hBody : body ∈ (bodiesOf statements).tail) :
    ∀ s ∈ body.head?, s.command.beginsFunction = true := by
  have hChain : (bodiesOf statements).IsChain fun _ body =>
      ∀ s ∈ body.head?, s.command.beginsFunction = true := by
    refine (List.isChain_getLast_head_splitBy _ statements).imp ?_
    rintro front body ⟨hFront, hFull, hApart⟩ s hs
    rw [← List.head_of_mem_head? hs]
    simpa using hApart
  exact isChain_right_iff.mp hChain body hBody

theorem not_beginsFunction_of_mem {statements body : List Statement}
    (hBody : body ∈ bodiesOf statements) :
    ∀ s ∈ body.tail, s.command.beginsFunction = false := by
  have hChain := List.isChain_of_mem_splitBy hBody
  simp only [Bool.not_eq_eq_eq_not, Bool.not_true] at hChain
  exact isChain_right_iff.mp hChain

/-- **The bodies of a program** are just that, and each stands in it where its turn is. -/
theorem isBody_of_bodiesOf {statements body : List Statement} {before after : List (List Statement)}
    (h : bodiesOf statements = before ++ body :: after) :
    statements = before.flatten ++ body ++ after.flatten ∧
      IsBody before.flatten body after.flatten := by
  have hTail : ∀ other ∈ (before ++ body :: after).tail, ∀ s ∈ other.head?,
      s.command.beginsFunction = true := h ▸ fun _ => beginsFunction_of_mem_tail
  have hMem : body ∈ bodiesOf statements := by simp [h]
  refine ⟨?_, ?_, not_beginsFunction_of_mem hMem, ?_⟩
  · rw [← flatten_bodiesOf statements, h]
    simp
  · cases before with
    | nil => exact Or.inl rfl
    | cons first before => exact Or.inr (hTail body (by simp))
  · apply head?_flatten_of_forall
    intro other hOther
    exact hTail other (by cases before <;> simp [hOther])

/-! ### Problems body by body -/

/-- **What a function follows plays no part** in its problems, nor in those behind it. -/
theorem stackProblems_append {before after : List Statement}
    (h : ∀ s ∈ after.head?, s.command.beginsFunction = true) :
    stackProblems (before ++ after) = stackProblems before ++ stackProblems after := by
  simp only [stackProblems_eq, problems_append]
  cases after with
  | nil => rfl
  | cons s after => rw [problems_of_beginsFunction (h s rfl)]

/-- The same if sums are checked: there is no answer if there is none for one of the two. -/
theorem checkedProblems_append {before after : List Statement}
    (h : ∀ s ∈ after.head?, s.command.beginsFunction = true) :
    checkedProblems (before ++ after) =
      (checkedProblems before).bind fun first => (checkedProblems after).map (first ++ ·) := by
  have hFits : sumsFit {} (before ++ after) = (sumsFit {} before && sumsFit {} after) := by
    rw [sumsFit_append]
    cases after with
    | nil => rfl
    | cons s after => rw [sumsFit_of_beginsFunction (h s rfl)]
  rw [checkedProblems, checkedProblems, checkedProblems, hFits, stackProblems_append h]
  cases sumsFit {} before with
  | false => rfl
  | true => cases sumsFit {} after <;> rfl

theorem stackProblems_flatten {bodies : List (List Statement)}
    (h : ∀ body ∈ bodies, ∀ s ∈ body.head?, s.command.beginsFunction = true) :
    stackProblems bodies.flatten = bodies.flatMap stackProblems := by
  induction bodies with
  | nil => rfl
  | cons body bodies ih =>
    obtain ⟨-, hBodies⟩ := List.forall_mem_cons.mp h
    rw [List.flatten_cons, stackProblems_append (head?_flatten_of_forall hBodies), ih hBodies]
    rfl

theorem stackProblems_append_flatten {lead : List Statement} {bodies : List (List Statement)}
    (h : ∀ body ∈ bodies, ∀ s ∈ body.head?, s.command.beginsFunction = true) :
    stackProblems (lead ++ bodies.flatten) = stackProblems lead ++ bodies.flatMap stackProblems := by
  rw [stackProblems_append (head?_flatten_of_forall h), stackProblems_flatten h]

theorem stackProblems_eq_flatMap (statements : List Statement) :
    stackProblems statements = (bodiesOf statements).flatMap stackProblems := by
  conv_lhs => rw [← flatten_bodiesOf statements]
  cases hBodies : bodiesOf statements with
  | nil => rfl
  | cons lead bodies =>
    have hTail : bodies = (bodiesOf statements).tail := by rw [hBodies, List.tail_cons]
    exact stackProblems_append_flatten (hTail ▸ fun _ => beginsFunction_of_mem_tail)

/-- **Functions are checked by themselves.**  A function and what stands behind it has the problems
that it has without what stands in front of it, also if sums are checked.  So the problems of a
program of several files are those of its bodies, each checked alone, one after the other; and
functions that stand in another order have the same problems, each function its own, in that
order. -/
theorem functions_checked_apart :
    (∀ (before after : List Statement) (position : Position) (name : String) (locals : Word),
      stackProblems (before ++ ⟨position, .function name locals⟩ :: after) =
        stackProblems before ++ stackProblems (⟨position, .function name locals⟩ :: after) ∧
      checkedProblems (before ++ ⟨position, .function name locals⟩ :: after) =
        (checkedProblems before).bind fun first =>
          (checkedProblems (⟨position, .function name locals⟩ :: after)).map (first ++ ·)) ∧
    (∀ parts : List Part,
      stackProblems (parts.flatMap (·.statements)) =
        (bodiesOf (parts.flatMap (·.statements))).flatMap stackProblems) ∧
    (∀ statements before body after, bodiesOf statements = before ++ body :: after →
      statements = before.flatten ++ body ++ after.flatten ∧ body ≠ [] ∧
        IsBody before.flatten body after.flatten) ∧
    ∀ (lead : List Statement) (functions others : List (List Statement)),
      (∀ function ∈ functions, ∃ s ∈ function.head?, s.command.beginsFunction = true) →
      others.Perm functions →
      stackProblems (lead ++ others.flatten) = stackProblems lead ++ others.flatMap stackProblems ∧
        (stackProblems (lead ++ others.flatten)).Perm
          (stackProblems (lead ++ functions.flatten)) := by
  refine ⟨?_, fun parts => stackProblems_eq_flatMap _, ?_, ?_⟩
  · intro before after position name locals
    have hBegins : ∀ s ∈ List.head? (⟨position, .function name locals⟩ :: after),
        s.command.beginsFunction = true := by
      intro s hs
      rw [← Option.some.inj hs]
      rfl
    exact ⟨stackProblems_append hBegins, checkedProblems_append hBegins⟩
  · intro statements before body after h
    obtain ⟨hSplit, hBody⟩ := isBody_of_bodiesOf h
    refine ⟨hSplit, ?_, hBody⟩
    apply List.ne_nil_of_mem_splitBy (l := statements)
    rw [← bodiesOf, h]
    exact List.mem_append_right _ List.mem_cons_self
  · intro lead functions others hFunctions hOrder
    have hBegins : ∀ function ∈ functions, ∀ s ∈ function.head?,
        s.command.beginsFunction = true := by
      intro function hMem s hs
      obtain ⟨first, hFirst, hBegins⟩ := hFunctions function hMem
      rwa [Option.mem_unique hs hFirst]
    have hOthers : stackProblems (lead ++ others.flatten) =
        stackProblems lead ++ others.flatMap stackProblems :=
      stackProblems_append_flatten fun function hMem => hBegins function (hOrder.mem_iff.mp hMem)
    refine ⟨hOthers, ?_⟩
    rw [hOthers, stackProblems_append_flatten hBegins]
    exact (hOrder.flatMap_right stackProblems).append_left _

/-- A function that adds what is not there, with a label that another function has too. -/
def emptySum : List Statement :=
  [⟨⟨"Foo.vm", 6⟩, .function "Foo.sum" 0⟩, ⟨⟨"Foo.vm", 7⟩, .label "TOP"⟩,
    ⟨⟨"Foo.vm", 8⟩, .binary .add⟩, ⟨⟨"Foo.vm", 9⟩, .ret⟩]

/-- Two functions with a label of one name: whichever stands first, each has its own problem. -/
theorem loop_checked_behind_sum :
    (∀ function ∈ [growingLoop, emptySum], ∃ s ∈ function.head?,
        s.command.beginsFunction = true) ∧
      [emptySum, growingLoop].Perm [growingLoop, emptySum] ∧
      stackProblems (growingLoop ++ emptySum) =
        [.unequalHeights ⟨"Foo.vm", 5⟩ "TOP" 1 2,
          .underflow ⟨"Foo.vm", 8⟩ "Foo.sum" (.binary .add) 2 0] ∧
      stackProblems (emptySum ++ growingLoop) =
        [.underflow ⟨"Foo.vm", 8⟩ "Foo.sum" (.binary .add) 2 0,
          .unequalHeights ⟨"Foo.vm", 5⟩ "TOP" 1 2] := by
  have hFunctions : ∀ function ∈ [growingLoop, emptySum], ∃ s ∈ function.head?,
      s.command.beginsFunction = true := by decide
  have hSwap : [emptySum, growingLoop].Perm [growingLoop, emptySum] := .swap _ _ _
  have hLoop : stackProblems growingLoop = [.unequalHeights ⟨"Foo.vm", 5⟩ "TOP" 1 2] := by
    simp [stackProblems, growingLoop, StackCheck.follow, StackCheck.step, StackCheck.reach,
      StackCheck.take, Command.effect, Word.minus]
  have hSum : stackProblems emptySum =
      [.underflow ⟨"Foo.vm", 8⟩ "Foo.sum" (.binary .add) 2 0] := by
    simp [stackProblems, emptySum, StackCheck.follow, StackCheck.step, StackCheck.reach,
      StackCheck.take, Command.effect, Word.minus]
  have hNone : stackProblems [] = [] := rfl
  obtain ⟨-, -, -, hApart⟩ := functions_checked_apart
  have hFirst := (hApart [] _ _ hFunctions (.refl _)).1
  have hSecond := (hApart [] _ _ hFunctions hSwap).1
  refine ⟨hFunctions, hSwap, ?_, ?_⟩
  · simpa [hLoop, hSum, hNone] using hFirst
  · simpa [hLoop, hSum, hNone] using hSecond

end HackVm
