import HackVm.Proofs.StackPath
import HackVm.StackCheck

/-!
# The checked height of the stack

The check goes through a program once, in the order of its text, while a path may jump forward and
backward any number of times.  What ties the two together is the table of the labels that were
reached: within a body the first height of a label stays (`StackCheck.behind_retains`), and if there
is no problem, every jump to the label and the label itself have that height
(`StackCheck.step_known`).  So the heights agree at both ends of every jump.

Heights are words, and one that is too large wraps.  What the check knows is the number of values on
the stack as long as its sums are words (`StackCheck.toNat_level`).

* `body_known`: what the check knows behind a command, and at the end of the body.
* `checked_height_sound`: on a path whose commands all have a known height, the values on the stack
  are as many as the check says, and no command takes more.
-/

namespace HackVm

namespace StackCheck

/-! ### The check as a fold -/

/-- What the check knows behind statements. -/
def behind (check : StackCheck) (statements : List Statement) : StackCheck :=
  statements.foldl (fun check s => (check.step s).1) check

/-- The problems that the check finds in statements. -/
def problems (check : StackCheck) : List Statement → List StackProblem
  | [] => []
  | s :: rest => (check.step s).2 ++ problems (check.step s).1 rest

/-- The height of the stack when the check comes to a command, after a label has got the height with
which it was reached. -/
def heightAt (check : StackCheck) : Command → Option Word
  | .function .. => some 0
  | .label name => check.height <|> check.reached[name]?
  | _ => check.height

theorem behind_append (check : StackCheck) (a b : List Statement) :
    check.behind (a ++ b) = (check.behind a).behind b :=
  List.foldl_append

theorem problems_append (a b : List Statement) : ∀ check : StackCheck,
    check.problems (a ++ b) = check.problems a ++ (check.behind a).problems b := by
  induction a with
  | nil => intro check; rfl
  | cons s a ih =>
    intro check
    rw [List.cons_append, problems, problems, ih, List.append_assoc]
    rfl

theorem sumsFit_append (a b : List Statement) : ∀ check : StackCheck,
    check.sumsFit (a ++ b) = (check.sumsFit a && (check.behind a).sumsFit b) := by
  induction a with
  | nil => intro check; rfl
  | cons s a ih =>
    intro check
    rw [List.cons_append, sumsFit, sumsFit, ih, Bool.and_assoc]
    rfl

theorem sumFits_of_sumsFit {check : StackCheck} {before rest : List Statement} {s : Statement}
    (h : check.sumsFit (before ++ s :: rest) = true) :
    (check.behind before).sumFits s.command = true := by
  rw [sumsFit_append, sumsFit, Bool.and_eq_true, Bool.and_eq_true] at h
  exact h.2.1

theorem sumsFit_take {check : StackCheck} {statements : List Statement}
    (h : check.sumsFit statements = true) (i : Nat) : check.sumsFit (statements.take i) = true := by
  rw [← List.take_append_drop i statements, sumsFit_append, Bool.and_eq_true] at h
  exact h.1

theorem toList_follow (statements : List Statement) :
    ∀ (check : StackCheck) (found : Array StackProblem),
      (check.follow found statements).2.toList = found.toList ++ check.problems statements := by
  induction statements with
  | nil => intro check found; rw [follow, problems, List.append_nil]
  | cons s rest ih =>
    intro check found
    rw [follow, problems, ← List.append_assoc]
    simp only [ih, Array.toList_appendList]

theorem stackProblems_eq (statements : List Statement) :
    stackProblems statements = problems {} statements := by
  rw [stackProblems, toList_follow]
  rfl

theorem step_eq_nil {before rest : List Statement} {s : Statement}
    (h : stackProblems (before ++ s :: rest) = []) :
    ((behind {} before).step s).2 = [] := by
  rw [stackProblems_eq, problems_append, problems] at h
  simp only [List.append_eq_nil_iff] at h
  exact h.2.1

/-! ### One statement -/

variable {check : StackCheck} {s : Statement}

theorem height_reach (position : Position) (name : String) :
    (check.reach position name).1.height = check.height := by
  unfold reach
  split
  · rfl
  · split <;> rfl

theorem reach_retains (position : Position) (name : String) {label : String} {n : Word}
    (h : check.reached[label]? = some n) :
    (check.reach position name).1.reached[label]? = some n := by
  unfold reach
  split
  · exact h
  · split
    · next hNew =>
      rw [Std.HashMap.getElem?_insert, if_neg ?_]
      · exact h
      · intro hEq
        rw [eq_of_beq hEq, h] at hNew
        cases hNew
    · exact h

/-- A label that is reached without a problem has the current height then. -/
theorem reach_known {position : Position} {name : String} {n : Word}
    (hHeight : check.height = some n) (hClean : (check.reach position name).2 = []) :
    (check.reach position name).1.reached[name]? = some n := by
  unfold reach at hClean ⊢
  rw [hHeight] at hClean ⊢
  simp only at hClean ⊢
  cases hReached : check.reached[name]? with
  | none => simp
  | some expected =>
    rw [hReached] at hClean
    simp only at hClean ⊢
    by_cases hEqual : expected = n
    · rw [hReached, hEqual]
    · rw [if_neg hEqual] at hClean
      cases hClean

theorem take_known {needed n : Word} (hHeight : check.height = some n)
    (hClean : (check.take s needed).2 = []) :
    needed ≤ n ∧ (check.take s needed).1.height = some (Word.minus n needed) := by
  unfold take at hClean ⊢
  rw [hHeight] at hClean ⊢
  simp only at hClean ⊢
  refine ⟨?_, trivial⟩
  by_cases hFew : n < needed
  · rw [if_pos hFew] at hClean
    cases hClean
  · exact UInt16.not_lt.mp hFew

theorem reached_take (needed : Word) : (check.take s needed).1.reached = check.reached := by
  unfold take
  split <;> rfl

/-- A label is reached where the height is known, and brings a height back where it is not. -/
theorem step_label_of_some {position : Position} {name : String} {n : Word}
    (h : check.height = some n) :
    check.step ⟨position, .label name⟩ = check.reach position name := by
  simp only [step, h]

theorem step_label_of_none {position : Position} {name : String} (h : check.height = none) :
    check.step ⟨position, .label name⟩ = ({ check with height := check.reached[name]? }, []) := by
  simp only [step, h]

/-- The height of the stack behind a command that finds what it takes. -/
def level (command : Command) (n : Word) : Word :=
  match command with
  | .function .. => 0
  | _ => Word.minus n (.ofNat command.effect.pops) + .ofNat command.effect.pushes

theorem level_label (name : String) (n : Word) : level (.label name) n = n :=
  (UInt16.add_zero _).trans (Word.minus_zero n)

theorem level_goto (name : String) (n : Word) : level (.goto name) n = n :=
  (UInt16.add_zero _).trans (Word.minus_zero n)

theorem level_ifGoto (name : String) (n : Word) : level (.ifGoto name) n = Word.minus n 1 :=
  UInt16.add_zero _

theorem heightAt_of_height {command : Command} {n : Word}
    (hFunction : command.beginsFunction = false) (hHeight : check.height = some n) :
    check.heightAt command = some n := by
  cases command with
  | function name locals => cases hFunction
  | label name =>
    rw [heightAt, hHeight]
    rfl
  | _ => exact hHeight

/-- What a command takes is given by a word. -/
theorem toNat_pops (command : Command) :
    (UInt16.ofNat command.effect.pops).toNat = command.effect.pops := by
  have hWord : command.effect.pops < 65536 := by
    cases command with
    | call name arguments => exact arguments.toNat_lt
    | _ => simp [Command.effect]
  exact UInt16.toNat_ofNat_of_lt' hWord

theorem level_eq {command : Command} (h : command.beginsFunction = false) (n : Word) :
    level command n =
      Word.minus n (.ofNat command.effect.pops) + .ofNat command.effect.pushes := by
  cases command with
  | function name locals => cases h
  | _ => rfl

theorem sumFits_of_beginsFunction {command : Command} (h : command.beginsFunction = true) :
    check.sumFits command = true := by
  cases command with
  | function name locals => rfl
  | _ => cases h

theorem sumFits_eq {command : Command} (h : command.beginsFunction = false) :
    check.sumFits command = check.height.all fun height =>
      (Word.minus height (.ofNat command.effect.pops) : Nat) + command.effect.pushes < 65536 := by
  cases command with
  | function name locals => cases h
  | _ => rfl

/-- **A height that does not wrap** is changed as the command changes the number of values. -/
theorem toNat_level {command : Command} {n : Word} (hFunction : command.beginsFunction = false)
    (hFits : check.sumFits command = true) (hHeight : check.heightAt command = some n) :
    (level command n : Nat) = n - command.effect.pops + command.effect.pushes := by
  have hWord : (Word.minus n (.ofNat command.effect.pops) : Nat) + command.effect.pushes <
      65536 := by
    cases command with
    | function name locals => cases hFunction
    | label name => exact UInt16.toNat_lt _
    | _ =>
      have hKnown : check.height = some n := hHeight
      rw [sumFits_eq hFunction, hKnown] at hFits
      exact of_decide_eq_true hFits
  rw [level_eq hFunction, UInt16.toNat_add,
    UInt16.toNat_ofNat_of_lt' (Nat.lt_of_le_of_lt (Nat.le_add_left _ _) hWord),
    Nat.mod_eq_of_lt hWord, Word.toNat_minus, toNat_pops]

/-- **A statement without a problem** finds what it takes; the height behind it is the one with
which the next statement follows, and the one with which a label is reached. -/
theorem step_known {n : Word} (hClean : (check.step s).2 = [])
    (hHeight : check.heightAt s.command = some n) :
    s.command.effect.pops ≤ (n : Nat) ∧
      (s.command.fallsThrough = true → (check.step s).1.height = some (level s.command n)) ∧
      ∀ name, s.command.jump? = some name ∨ s.command = .label name →
        (check.step s).1.reached[name]? = some (level s.command n) := by
  obtain ⟨position, command⟩ := s
  cases command with
  | function name locals =>
    refine ⟨Nat.zero_le _, fun _ => rfl, ?_⟩
    rintro label (h | h) <;> cases h
  | label name =>
    rw [level_label]
    cases hKnown : check.height with
    | some found =>
      have hEqual : found = n := by simpa [heightAt, hKnown] using hHeight
      rw [hEqual] at hKnown
      rw [step_label_of_some hKnown] at hClean ⊢
      refine ⟨Nat.zero_le _, fun _ => (height_reach position name).trans hKnown, ?_⟩
      rintro other (h | h)
      · cases h
      · cases h
        exact reach_known hKnown hClean
    | none =>
      have hReached : check.reached[name]? = some n := by simpa [heightAt, hKnown] using hHeight
      rw [step_label_of_none hKnown]
      refine ⟨Nat.zero_le _, fun _ => hReached, ?_⟩
      rintro other (h | h)
      · cases h
      · cases h
        exact hReached
  | goto name =>
    rw [level_goto]
    refine ⟨Nat.zero_le _, fun h => (by cases h), ?_⟩
    rintro other (h | h)
    · cases h
      exact reach_known hHeight hClean
    · cases h
  | ifGoto name =>
    rw [level_ifGoto]
    obtain ⟨hTakeClean, hReachClean⟩ := List.append_eq_nil_iff.mp hClean
    obtain ⟨hEnough, hTaken⟩ := take_known hHeight hTakeClean
    refine ⟨UInt16.le_iff_toNat_le.mp hEnough,
      fun _ => (height_reach position name).trans hTaken, ?_⟩
    rintro other (h | h)
    · cases h
      exact reach_known hTaken hReachClean
    · cases h
  | ret =>
    have hPos : n ≠ 0 := by
      rintro rfl
      have hMissing : check.height = some 0 := hHeight
      rw [step, if_pos hMissing] at hClean
      cases hClean
    refine ⟨?_, fun h => (by cases h), ?_⟩
    · exact Nat.pos_of_ne_zero fun hZero => hPos (UInt16.toNat_inj.mp hZero)
    · rintro other (h | h) <;> cases h
  | _ =>
    obtain ⟨hEnough, hTaken⟩ := take_known hHeight hClean
    refine ⟨?_, fun _ => ?_, ?_⟩
    · rw [← toNat_pops]
      exact UInt16.le_iff_toNat_le.mp hEnough
    · show Option.map _ (check.take _ _).1.height = _
      rw [hTaken]
      rfl
    · rintro other (h | h) <;> cases h

/-- A label keeps its height within a body. -/
theorem step_retains (hFunction : s.command.beginsFunction = false) {name : String} {n : Word}
    (h : check.reached[name]? = some n) : (check.step s).1.reached[name]? = some n := by
  obtain ⟨position, command⟩ := s
  cases command with
  | function name locals => cases hFunction
  | label other =>
    cases hKnown : check.height with
    | some found =>
      rw [step_label_of_some hKnown]
      exact reach_retains position other h
    | none =>
      rw [step_label_of_none hKnown]
      exact h
  | goto other => exact reach_retains position other h
  | ifGoto other =>
    show ((check.take _ 1).1.reach position other).1.reached[name]? = some n
    apply reach_retains
    rw [reached_take]
    exact h
  | ret => exact h
  | _ =>
    show (check.take _ _).1.reached[name]? = some n
    rw [reached_take]
    exact h

/-- A function is checked by itself. -/
theorem step_of_beginsFunction (h : s.command.beginsFunction = true) :
    check.step s = step {} s := by
  obtain ⟨position, command⟩ := s
  cases command with
  | function name locals => rfl
  | _ => cases h

theorem problems_of_beginsFunction {rest : List Statement} (h : s.command.beginsFunction = true) :
    check.problems (s :: rest) = problems {} (s :: rest) := by
  rw [problems, problems, step_of_beginsFunction h]

theorem sumsFit_of_beginsFunction {rest : List Statement} (h : s.command.beginsFunction = true) :
    check.sumsFit (s :: rest) = sumsFit {} (s :: rest) := by
  rw [sumsFit, sumsFit, step_of_beginsFunction h, sumFits_of_beginsFunction h,
    sumFits_of_beginsFunction h]

theorem behind_retains {statements : List Statement} :
    ∀ {check : StackCheck}, (∀ s ∈ statements, s.command.beginsFunction = false) →
      ∀ {name : String} {n : Word}, check.reached[name]? = some n →
        (check.behind statements).reached[name]? = some n := by
  induction statements with
  | nil => intro check _ name n h; exact h
  | cons s rest ih =>
    intro check hFunction name n h
    exact ih (fun t ht => hFunction t (List.mem_cons_of_mem _ ht))
      (step_retains (hFunction s List.mem_cons_self) h)

end StackCheck

/-! ### Bodies -/

/-- The height that the check has when it comes to a command of a body. -/
def checkedHeight (before body : List Statement) (i : Nat) : Option Word :=
  body[i]?.bind fun s => (StackCheck.behind {} (before ++ body.take i)).heightAt s.command

theorem checkedHeight_eq {before body : List Statement} {i : Nat} {s : Statement}
    (hs : body[i]? = some s) :
    checkedHeight before body i =
      (StackCheck.behind {} (before ++ body.take i)).heightAt s.command := by
  rw [checkedHeight, hs, Option.bind_some]

section Body

variable {before body after : List Statement}

theorem behind_take_succ {i : Nat} {s : Statement} (hs : body[i]? = some s) :
    StackCheck.behind {} (before ++ body.take (i + 1)) =
      ((StackCheck.behind {} (before ++ body.take i)).step s).1 := by
  rw [List.take_add_one, hs, ← List.append_assoc, StackCheck.behind_append]
  rfl

theorem take_append_cons_drop {i : Nat} {s : Statement} (hs : body[i]? = some s) :
    body.take i ++ s :: body.drop (i + 1) = body := by
  obtain ⟨hi, hGet⟩ := List.getElem?_eq_some_iff.mp hs
  rw [← hGet, ← List.drop_eq_getElem_cons hi, List.take_append_drop]

theorem step_body_eq_nil (hClean : stackProblems (before ++ body ++ after) = []) {i : Nat}
    {s : Statement} (hs : body[i]? = some s) :
    ((StackCheck.behind {} (before ++ body.take i)).step s).2 = [] := by
  have hSplit : before ++ body ++ after =
      (before ++ body.take i) ++ s :: (body.drop (i + 1) ++ after) := by
    calc before ++ body ++ after
        = before ++ (body.take i ++ s :: body.drop (i + 1)) ++ after := by
          rw [take_append_cons_drop hs]
      _ = (before ++ body.take i) ++ s :: (body.drop (i + 1) ++ after) := by
          simp only [List.append_assoc, List.cons_append]
  rw [hSplit] at hClean
  exact StackCheck.step_eq_nil hClean

/-- The sums of a body are its own. -/
theorem sumsFit_body (hBody : IsBody before body after) :
    (StackCheck.behind {} before).sumsFit body = StackCheck.sumsFit {} body := by
  rcases hBody.head with rfl | hHead
  · rfl
  · rcases body with _ | ⟨s, body⟩
    · rfl
    · exact StackCheck.sumsFit_of_beginsFunction (hHead s rfl)

theorem sumFits_body (hBody : IsBody before body after)
    (hFits : StackCheck.sumsFit {} body = true) {i : Nat} {s : Statement}
    (hs : body[i]? = some s) :
    (StackCheck.behind {} (before ++ body.take i)).sumFits s.command = true := by
  rw [← sumsFit_body hBody, ← take_append_cons_drop hs] at hFits
  rw [StackCheck.behind_append]
  exact StackCheck.sumFits_of_sumsFit hFits

/-- A label that a command of a body reaches keeps its height to the end of the body. -/
theorem reached_end (hBody : IsBody before body after) {i : Nat} {s : Statement}
    (hs : body[i]? = some s) {name : String} {n : Word}
    (h : ((StackCheck.behind {} (before ++ body.take i)).step s).1.reached[name]? = some n) :
    (StackCheck.behind {} (before ++ body)).reached[name]? = some n := by
  have hRest : ∀ t ∈ body.drop (i + 1), t.command.beginsFunction = false := by
    intro t ht
    obtain ⟨j, hj⟩ := List.mem_iff_getElem?.mp ht
    rw [List.getElem?_drop] at hj
    exact hBody.not_beginsFunction (by omega) hj
  have hSplit : before ++ body = (before ++ body.take (i + 1)) ++ body.drop (i + 1) := by
    rw [List.append_assoc, List.take_append_drop]
  rw [hSplit, StackCheck.behind_append]
  apply StackCheck.behind_retains hRest
  rw [behind_take_succ hs]
  exact h

/-- **A command of a body** at which the height is known finds what it takes.  The check knows the
height behind it, and at the end of the body that of its label or of the label that it jumps to. -/
theorem body_known (hBody : IsBody before body after)
    (hClean : stackProblems (before ++ body ++ after) = []) {i : Nat} {n : Word} {s : Statement}
    (hs : body[i]? = some s) (hHeight : checkedHeight before body i = some n) :
    s.command.effect.pops ≤ (n : Nat) ∧
      (s.command.fallsThrough = true →
        (StackCheck.behind {} (before ++ body.take (i + 1))).height =
          some (StackCheck.level s.command n)) ∧
      ∀ name, s.command.jump? = some name ∨ s.command = .label name →
        (StackCheck.behind {} (before ++ body)).reached[name]? =
          some (StackCheck.level s.command n) := by
  rw [checkedHeight_eq hs] at hHeight
  obtain ⟨hEnough, hNext, hReached⟩ := StackCheck.step_known (step_body_eq_nil hClean hs) hHeight
  refine ⟨hEnough, fun hFalls => ?_, fun name hName => ?_⟩
  · rw [behind_take_succ hs]
    exact hNext hFalls
  · exact reached_end hBody hs (hReached name hName)

/-! ### Paths -/

theorem checkedHeight_zero (hBody : IsBody before body after) (hFull : body ≠ []) :
    checkedHeight before body 0 = some 0 := by
  obtain ⟨s, rest, rfl⟩ := List.exists_cons_of_ne_nil hFull
  rw [checkedHeight_eq (s := s) rfl]
  obtain ⟨position, command⟩ := s
  cases command with
  | function name locals => rfl
  | _ =>
    -- No function, so nothing stands before the body and the check has just begun.
    rcases hBody.head with rfl | hHead
    · rfl
    · cases hHead _ rfl

theorem checkedHeight_succ (hBody : IsBody before body after)
    (hClean : stackProblems (before ++ body ++ after) = []) {i : Nat} {n : Word} {s t : Statement}
    (hs : body[i]? = some s) (hHeight : checkedHeight before body i = some n)
    (hFalls : s.command.fallsThrough = true) (ht : body[i + 1]? = some t) :
    checkedHeight before body (i + 1) = some (StackCheck.level s.command n) := by
  obtain ⟨-, hNext, -⟩ := body_known hBody hClean hs hHeight
  rw [checkedHeight_eq ht]
  exact StackCheck.heightAt_of_height (hBody.not_beginsFunction (Nat.succ_pos i) ht) (hNext hFalls)

/-- The check comes to a label with the height that a jump to it has, wherever the two stand: both
are in the table at the end of the body. -/
theorem checkedHeight_jump (hBody : IsBody before body after)
    (hClean : stackProblems (before ++ body ++ after) = []) {i j : Nat} {n m : Word}
    {s t : Statement} {name : String} (hs : body[i]? = some s)
    (hHeight : checkedHeight before body i = some n)
    (hJump : s.command.jump? = some name) (ht : body[j]? = some t)
    (hLabel : t.command = .label name) (hTarget : checkedHeight before body j = some m) :
    m = StackCheck.level s.command n := by
  obtain ⟨-, -, hSource⟩ := body_known hBody hClean hs hHeight
  obtain ⟨-, -, hThere⟩ := body_known hBody hClean ht hTarget
  have hSame : StackCheck.level t.command m = StackCheck.level s.command n :=
    Option.some.inj ((hThere name (Or.inr hLabel)).symm.trans (hSource name (Or.inl hJump)))
  rw [hLabel, StackCheck.level_label] at hSame
  exact hSame

/-- A command that finds what it takes changes the height of a path as it changes that of the
check, if its sum is a word. -/
theorem heightAfter_eq_level {check : StackCheck} {command : Command} {n : Word}
    (hFits : check.sumFits command = true) (hHeight : check.heightAt command = some n)
    (hEnough : command.effect.pops ≤ (n : Nat)) :
    command.heightAfter (n : Nat) = (StackCheck.level command n : Nat) := by
  cases hBegins : command.beginsFunction with
  | true =>
    cases command with
    | function name locals => rfl
    | _ => cases hBegins
  | false =>
    rw [StackCheck.toNat_level hBegins hFits hHeight, Int.natCast_add, Int.ofNat_sub hEnough]
    cases command with
    | function name locals => cases hBegins
    | _ => rfl

section Path

variable (hBody : IsBody before body after)
  (hClean : stackProblems (before ++ body ++ after) = [])
  (hFits : StackCheck.sumsFit {} body = true) {visits : List (Nat × Int)}
  (hPath : Path body visits)
  (hKnown : ∀ visit ∈ visits, (checkedHeight before body visit.1).isSome)

include hBody hClean hFits hPath hKnown

/-- The height with which the check comes to each command of a path is that of the path. -/
theorem path_height : ∀ visit ∈ visits, ∃ n : Word,
    checkedHeight before body visit.1 = some n ∧ visit.2 = (n : Nat) := by
  induction hPath with
  | start hFull =>
    intro visit hMem
    rw [List.mem_singleton.mp hMem]
    exact ⟨0, checkedHeight_zero hBody hFull, rfl⟩
  | @step i j height visits s hPath hs hFlow hj ih =>
    have hBefore := ih fun visit hMem => hKnown visit (List.mem_cons_of_mem _ hMem)
    intro visit hMem
    rcases List.mem_cons.mp hMem with rfl | hMem
    · obtain ⟨n, hHeight, hAgree⟩ := hBefore (i, height) List.mem_cons_self
      obtain ⟨m, hTarget⟩ := Option.isSome_iff_exists.mp (hKnown _ List.mem_cons_self)
      have hLevel : m = StackCheck.level s.command n := by
        rcases hFlow with ⟨hFalls, rfl⟩ | ⟨name, hJump, t, ht, hName⟩
        · have hNext := checkedHeight_succ hBody hClean hs hHeight hFalls
            (List.getElem?_eq_getElem hj)
          exact Option.some.inj (hTarget.symm.trans hNext)
        · exact checkedHeight_jump hBody hClean hs hHeight hJump ht hName hTarget
      refine ⟨m, hTarget, ?_⟩
      have hHere : height = (n : Nat) := hAgree
      show s.command.heightAfter height = (m : Nat)
      rw [hHere, hLevel]
      exact heightAfter_eq_level (sumFits_body hBody hFits hs) (checkedHeight_eq hs ▸ hHeight)
        (body_known hBody hClean hs hHeight).1
    · exact hBefore visit hMem

/-- **Soundness of the check.**  In a program without problems, follow a path through a body whose
heights do not wrap, from its first command, with no value above the locals.  If the check knows the
height at each command that the path visits, this is the number of values there, and the command
does not take more. -/
theorem checked_height_sound : ∀ visit ∈ visits, ∃ s, ∃ n : Word, body[visit.1]? = some s ∧
    checkedHeight before body visit.1 = some n ∧ visit.2 = (n : Nat) ∧
      s.command.effect.pops ≤ (n : Nat) := by
  intro visit hMem
  obtain ⟨n, hHeight, hAgree⟩ := path_height hBody hClean hFits hPath hKnown visit hMem
  obtain ⟨s, hs, -⟩ := Option.bind_eq_some_iff.mp hHeight
  exact ⟨s, n, hs, hHeight, hAgree, (body_known hBody hClean hs hHeight).1⟩

end Path

end Body

/-- A function that goes round a loop. -/
def loopBody : List Statement :=
  [⟨⟨"Main.vm", 1⟩, .function "Main.run" 0⟩, ⟨⟨"Main.vm", 2⟩, .push .constant 1⟩,
    ⟨⟨"Main.vm", 3⟩, .label "AGAIN"⟩, ⟨⟨"Main.vm", 4⟩, .push .argument 0⟩,
    ⟨⟨"Main.vm", 5⟩, .ifGoto "AGAIN"⟩, ⟨⟨"Main.vm", 6⟩, .ret⟩]

/-- In a function with a loop the heights are known, also when the path comes back. -/
theorem loop_height_checked :
    stackProblems loopBody = [] ∧ StackCheck.sumsFit {} loopBody = true ∧
      Path loopBody [(2, 1), (4, 2), (3, 1), (2, 1), (1, 0), (0, 0)] ∧
      ∀ visit ∈ [(2, (1 : Int)), (4, 2), (3, 1), (2, 1), (1, 0), (0, 0)],
        ∃ s, ∃ n : Word, loopBody[visit.1]? = some s ∧
          checkedHeight [] loopBody visit.1 = some n ∧ visit.2 = (n : Nat) ∧
            s.command.effect.pops ≤ (n : Nat) := by
  have hBody : IsBody [] loopBody [] := ⟨Or.inl rfl, by decide, nofun⟩
  have hClean : stackProblems loopBody = [] := by
    simp [stackProblems, loopBody, StackCheck.follow, StackCheck.step, StackCheck.reach,
      StackCheck.take, Command.effect, Word.minus]
  have hFits : StackCheck.sumsFit {} loopBody = true := by
    simp [loopBody, StackCheck.sumsFit, StackCheck.sumFits, StackCheck.step, StackCheck.reach,
      StackCheck.take, Command.effect, Word.minus]
  have hBegin : Path loopBody [(1, 0), (0, 0)] :=
    .step (.start (List.cons_ne_nil _ _)) rfl (Or.inl ⟨rfl, rfl⟩) (by decide)
  have hEnter : Path loopBody [(2, 1), (1, 0), (0, 0)] :=
    .step hBegin rfl (Or.inl ⟨rfl, rfl⟩) (by decide)
  have hPush : Path loopBody [(3, 1), (2, 1), (1, 0), (0, 0)] :=
    .step hEnter rfl (Or.inl ⟨rfl, rfl⟩) (by decide)
  have hTest : Path loopBody [(4, 2), (3, 1), (2, 1), (1, 0), (0, 0)] :=
    .step hPush rfl (Or.inl ⟨rfl, rfl⟩) (by decide)
  have hBack : Path loopBody [(2, 1), (4, 2), (3, 1), (2, 1), (1, 0), (0, 0)] :=
    .step hTest rfl (Or.inr ⟨_, rfl, _, rfl, rfl⟩) (by decide)
  refine ⟨hClean, hFits, hBack, checked_height_sound hBody ?_ hFits hBack ?_⟩
  · rw [List.nil_append, List.append_nil]
    exact hClean
  · simp [checkedHeight, loopBody, StackCheck.behind, StackCheck.heightAt, StackCheck.step,
      StackCheck.reach, StackCheck.take, Command.effect, Word.minus]

end HackVm
