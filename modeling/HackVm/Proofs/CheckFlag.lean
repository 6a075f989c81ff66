import HackVm.CommandLine.Arguments

/-!
# The flag `--check`

Two readings of the same arguments are compared, the second of which has noted `--check` before the
first argument.  They stay beside each other (`Beside`) up to the first `--check` among the
arguments: there the second reading ends, since no flag is given twice, and the first goes on to a
job with a check.

* `exists_reading`: what an argument does, whatever the settings are.
* `asked_readArguments`: the two readings ask for the same, but for the check.
* `Settings.check_inserted`: `--check` among the arguments makes no other difference to a job.
* `Request.ofArguments_cons_check`: `--check` can be put before the arguments of a job without a
  check.
-/

namespace HackVm

/-! ### What an argument does -/

/-- What an argument comes to behind its flags. -/
inductive Ending
  | next
  | output
  | path (text : String)
  | value (text : String)
  | help
  | version
  | refused

/-- The step of an argument with this ending. -/
def Ending.step (ending : Ending) (settings : Settings) : Option Step :=
  match ending with
  | .next => some (.next settings)
  | .output => some (.output settings)
  | .path text => (settings.addPath text).map .next
  | .value text => (settings.addOutput text).map .next
  | .help => some (.stop .help)
  | .version => some (.stop .version)
  | .refused => none

namespace Settings

/-- An option by its name notes a flag or comes to an ending. -/
theorem exists_readName (name : String) (value? : Option String) :
    ∃ (flags : List Flag) (ending : Ending), ∀ settings : Settings,
      settings.readName name value? = (flags.foldlM addFlag settings).bind ending.step := by
  have hFlag : ∀ (flag : Flag) (settings : Settings), (settings.addFlag flag).map Step.next =
      ([flag].foldlM addFlag settings).bind Ending.next.step := by
    intro flag settings
    cases h : settings.addFlag flag <;> simp [h, Ending.step]
  fun_cases Settings.readName {} name value?
  · exact ⟨[], .output, fun _ => rfl⟩
  · exact ⟨[], .value _, fun _ => rfl⟩
  · exact ⟨_, _, hFlag .noBootstrap⟩
  · exact ⟨_, _, hFlag .noComments⟩
  · exact ⟨_, _, hFlag .check⟩
  · exact ⟨_, _, hFlag .verbose⟩
  · exact ⟨[], .help, fun _ => rfl⟩
  · exact ⟨[], .version, fun _ => rfl⟩
  · refine ⟨[], .refused, fun settings => ?_⟩
    rw [readName]
    · rfl
    all_goals assumption

/-- Options by their letters note flags, and come to an ending at the first other letter. -/
theorem exists_readLetters (letters : List Char) :
    ∃ (flags : List Flag) (ending : Ending), ∀ settings : Settings,
      settings.readLetters letters = (flags.foldlM addFlag settings).bind ending.step := by
  fun_induction Settings.readLetters {} letters
  · exact ⟨[], .next, fun _ => rfl⟩
  · exact ⟨[], .output, fun _ => rfl⟩
  · exact ⟨[], .value _, fun _ => rfl⟩
  · next value hFull hPlain =>
    refine ⟨[], .value (String.ofList value), fun settings => ?_⟩
    rw [readLetters]
    · rfl
    all_goals assumption
  · next rest ih =>
    obtain ⟨flags, ending, hRest⟩ := ih {}
    refine ⟨.verbose :: flags, ending, fun settings => ?_⟩
    rw [readLetters, List.foldlM_cons, Option.bind_eq_bind, Option.bind_eq_bind, Option.bind_assoc]
    exact Option.bind_congr fun noted _ => hRest noted
  · exact ⟨[], .help, fun _ => rfl⟩
  · exact ⟨[], .version, fun _ => rfl⟩
  · refine ⟨[], .refused, fun settings => ?_⟩
    rw [readLetters]
    · rfl
    all_goals assumption

/-- **What an argument does**: it notes flags, and comes to an ending. -/
theorem exists_reading (argument : String) :
    ∃ (flags : List Flag) (ending : Ending), ∀ settings : Settings,
      settings.readArgument argument = (flags.foldlM addFlag settings).bind ending.step := by
  fun_cases Settings.readArgument {} argument
  · next option hText name hName =>
    obtain ⟨flags, ending, hRead⟩ := exists_readName name none
    refine ⟨flags, ending, fun settings => ?_⟩
    rw [readArgument, hText, ← hRead]
    simp only [hName]
    rfl
  · next option hText name separator value hValue =>
    obtain ⟨flags, ending, hRead⟩ := exists_readName name (some (String.ofList value))
    refine ⟨flags, ending, fun settings => ?_⟩
    rw [readArgument, hText, ← hRead]
    simp only [hValue]
    rfl
  · next c letters hLetter hText =>
    obtain ⟨flags, ending, hRead⟩ := exists_readLetters (c :: letters)
    refine ⟨flags, ending, fun settings => ?_⟩
    rw [readArgument.eq_def, hText, ← hRead]
    split
    · next hOption =>
      cases hOption
      exact absurd rfl hLetter
    · next hOption =>
      cases hOption
      rfl
    · next hNone => exact absurd rfl (hNone c letters)
  · next hName hLetters =>
    refine ⟨[], .path argument, fun settings => ?_⟩
    rw [readArgument.eq_def]
    split
    · next hOption => exact absurd hOption (hName _)
    · next hOption => exact absurd hOption (hLetters _ _)
    · rfl

/-- What the step of an argument comes to, with the arguments behind it. -/
def goOn (rest : List String) : Step → Option Request
  | .stop request => some request
  | .next settings => settings.readArguments rest
  | .output settings =>
    match rest with
    | [] => none
    | value :: rest =>
      if looksLikeOption value then none
      else (settings.addOutput value).bind (·.readArguments rest)

theorem readArguments_cons {argument : String} (hArgument : argument ≠ "--") (rest : List String)
    (settings : Settings) :
    settings.readArguments (argument :: rest) =
      (settings.readArgument argument).bind (goOn rest) := by
  rw [readArguments]
  · rfl
  · exact hArgument

theorem readArguments_paths (rest : List String) (settings : Settings) :
    settings.readArguments ("--" :: rest) =
      (rest.foldlM addPath settings).bind (·.job?.map .translate) :=
  rfl

end Settings

/-! ### Two readings beside each other -/

/-- The same settings, but that `--check` was noted too. -/
structure Settings.WithCheck (settings checked : Settings) : Prop where
  path_eq : checked.path? = settings.path?
  output_eq : checked.output? = settings.output?
  mem_flags : ∀ flag, flag ∈ checked.flags ↔ flag = .check ∨ flag ∈ settings.flags
  unchecked : .check ∉ settings.flags

/-- How far two readings of the same arguments came, the second of which had noted `--check`
before. -/
inductive Beside : Option Settings → Option Settings → Prop
  | both {settings checked : Settings} :
      settings.WithCheck checked → Beside (some settings) (some checked)
  /-- The second reading ended at a `--check` that the first one noted. -/
  | twice {settings : Settings} : .check ∈ settings.flags → Beside (some settings) none
  | none : Beside none none

namespace Beside

variable {x y : Option Settings}

theorem bind {f : Settings → Option Settings} (h : Beside x y)
    (hBoth : ∀ {settings checked : Settings}, settings.WithCheck checked →
      Beside (f settings) (f checked))
    (hFlags : ∀ {settings noted : Settings}, f settings = some noted →
      settings.flags ⊆ noted.flags) :
    Beside (x.bind f) (y.bind f) := by
  cases h with
  | both hWith => exact hBoth hWith
  | twice hCheck =>
    rw [Option.bind_some, Option.bind_none]
    cases hNoted : f _ with
    | none => exact .none
    | some noted => exact .twice (hFlags hNoted hCheck)
  | none => exact .none

theorem addFlag (h : Beside x y) (flag : Flag) :
    Beside (x.bind (·.addFlag flag)) (y.bind (·.addFlag flag)) := by
  refine h.bind (fun {settings checked} hWith => ?_) fun {settings noted} hNoted => ?_
  · have hMem := hWith.mem_flags flag
    rw [Settings.addFlag, Settings.addFlag]
    by_cases hOld : flag ∈ settings.flags
    · rw [if_pos hOld, if_pos (hMem.mpr (Or.inr hOld))]
      exact .none
    · rw [if_neg hOld]
      by_cases hCheck : flag = .check
      · rw [if_pos (hMem.mpr (Or.inl hCheck))]
        exact .twice (List.mem_cons.mpr (Or.inl hCheck.symm))
      · rw [if_neg fun hMore => (hMem.mp hMore).elim hCheck hOld]
        refine .both ⟨hWith.path_eq, hWith.output_eq, fun other => ?_, ?_⟩
        · rw [List.mem_cons, List.mem_cons, hWith.mem_flags]
          exact or_left_comm
        · rw [List.mem_cons, not_or]
          exact ⟨fun hSame => hCheck hSame.symm, hWith.unchecked⟩
  · rw [Settings.addFlag] at hNoted
    split at hNoted
    · cases hNoted
    · cases hNoted
      exact List.subset_cons_self flag settings.flags

theorem addPath (h : Beside x y) (path : String) :
    Beside (x.bind (·.addPath path)) (y.bind (·.addPath path)) := by
  refine h.bind (fun {settings checked} hWith => ?_) fun {settings noted} hNoted => ?_
  · rw [Settings.addPath, Settings.addPath, hWith.path_eq]
    split
    · exact .none
    · exact .both ⟨rfl, hWith.output_eq, hWith.mem_flags, hWith.unchecked⟩
  · rw [Settings.addPath] at hNoted
    split at hNoted
    · cases hNoted
    · cases hNoted
      exact List.Subset.refl _

theorem addOutput (h : Beside x y) (output : String) :
    Beside (x.bind (·.addOutput output)) (y.bind (·.addOutput output)) := by
  refine h.bind (fun {settings checked} hWith => ?_) fun {settings noted} hNoted => ?_
  · rw [Settings.addOutput, Settings.addOutput, hWith.output_eq]
    split
    · exact .none
    · exact .both ⟨hWith.path_eq, rfl, hWith.mem_flags, hWith.unchecked⟩
  · rw [Settings.addOutput] at hNoted
    split at hNoted
    · cases hNoted
    · cases hNoted
      exact List.Subset.refl _

theorem foldlM {α : Type} {note : Settings → α → Option Settings}
    (hNote : ∀ {x y : Option Settings} (a : α), Beside x y →
      Beside (x.bind (note · a)) (y.bind (note · a))) (list : List α) :
    ∀ {x y : Option Settings}, Beside x y →
      Beside (x.bind (list.foldlM note)) (y.bind (list.foldlM note)) := by
  induction list with
  | nil =>
    intro x y h
    have hNil : ∀ z : Option Settings, z.bind ([].foldlM note) = z := fun z => by simp
    rw [hNil, hNil]
    exact h
  | cons a rest ih =>
    intro x y h
    have hCons : ∀ z : Option Settings,
        z.bind ((a :: rest).foldlM note) = (z.bind (note · a)).bind (rest.foldlM note) :=
      fun z => by rw [Option.bind_assoc]; simp only [List.foldlM_cons, Option.bind_eq_bind]
    rw [hCons, hCons]
    exact ih (hNote a h)

end Beside

/-! ### What two readings ask for -/

/-- What two readings of the same arguments ask for, the second of which had noted `--check`
before. -/
inductive Asked : Option Request → Option Request → Prop
  | job {job : Job} : job.check = false →
      Asked (some (.translate job)) (some (.translate { job with check := true }))
  | same {request : Request} : (∀ job, request ≠ .translate job) →
      Asked (some request) (some request)
  /-- The second reading ended, and the first one noted `--check` too if it came to a job. -/
  | twice {request? : Option Request} :
      (∀ job, request? = some (.translate job) → job.check = true) → Asked request? none

namespace Settings

theorem check_of_job? {settings : Settings} {job : Job} (h : settings.job? = some job) :
    job.check = true ↔ .check ∈ settings.flags := by
  obtain ⟨path, -, rfl⟩ := Option.map_eq_some_iff.mp h
  exact decide_eq_true_iff

theorem WithCheck.job?_eq {settings checked : Settings} (h : settings.WithCheck checked) :
    checked.job? = settings.job?.map fun job => { job with check := true } := by
  have hMem : ∀ flag, flag ≠ .check → (flag ∈ checked.flags ↔ flag ∈ settings.flags) :=
    fun flag hOther => (h.mem_flags flag).trans (or_iff_right hOther)
  have hCheck : .check ∈ checked.flags := (h.mem_flags .check).mpr (Or.inl rfl)
  simp only [job?, h.path_eq, h.output_eq, hMem .noBootstrap nofun, hMem .noComments nofun,
    hMem .verbose nofun, hCheck, decide_true, Option.map_map]
  rfl

variable {x y : Option Settings}

theorem asked_job? (h : Beside x y) :
    Asked (x.bind (·.job?.map .translate)) (y.bind (·.job?.map .translate)) := by
  cases h with
  | @both settings checked hWith =>
    rw [Option.bind_some, Option.bind_some, hWith.job?_eq]
    cases hJob : settings.job? with
    | none => exact .twice nofun
    | some job =>
      exact .job (Bool.eq_false_iff.mpr (mt (check_of_job? hJob).mp hWith.unchecked))
  | @twice settings hCheck =>
    refine .twice fun job hAsked => ?_
    obtain ⟨_, hJob, hSame⟩ := Option.map_eq_some_iff.mp hAsked
    cases hSame
    exact (check_of_job? hJob).mpr hCheck
  | none => exact .twice nofun

theorem asked_stop {request : Request} (hStop : ∀ job, request ≠ .translate job)
    (h : Beside x y) : Asked (x.bind fun _ => some request) (y.bind fun _ => some request) := by
  cases h with
  | both => exact .same hStop
  | twice => exact .twice fun job hJob => absurd (Option.some.inj hJob) (hStop job)
  | none => exact .twice nofun

theorem asked_refused : Asked (x.bind fun _ => none) (y.bind fun _ => none) := by
  rw [Option.bind_fun_none, Option.bind_fun_none]
  exact .twice nofun

/-- **The two readings** ask for the same, but for the check. -/
theorem asked_readArguments : ∀ (arguments : List String) {x y : Option Settings}, Beside x y →
    Asked (x.bind (·.readArguments arguments)) (y.bind (·.readArguments arguments))
  | [], x, y, h => asked_job? h
  | argument :: rest, x, y, h => by
    by_cases hEnd : argument = "--"
    · subst hEnd
      simp only [readArguments_paths, ← Option.bind_assoc]
      exact asked_job? (h.foldlM (fun path h => h.addPath path) rest)
    obtain ⟨flags, ending, hRead⟩ := exists_reading argument
    simp only [readArguments_cons hEnd, hRead]
    -- both readings note the flags; what is left is the ending, and the arguments behind it
    have hFlags := h.foldlM (fun flag h => h.addFlag flag) flags
    simp only [Option.bind_assoc]
    simp only [← Option.bind_assoc]
    revert hFlags
    generalize x.bind (flags.foldlM addFlag) = x
    generalize y.bind (flags.foldlM addFlag) = y
    intro hFlags
    rw [Option.bind_assoc, Option.bind_assoc]
    cases ending with
    | next => exact asked_readArguments rest hFlags
    | output =>
      cases rest with
      | nil => exact asked_refused
      | cons value rest =>
        simp only [Ending.step, Option.bind_some, goOn]
        split
        · exact asked_refused
        · rw [← Option.bind_assoc, ← Option.bind_assoc]
          exact asked_readArguments rest (hFlags.addOutput value)
    | path text =>
      simp only [Ending.step, Option.bind_map]
      rw [← Option.bind_assoc, ← Option.bind_assoc]
      exact asked_readArguments rest (hFlags.addPath text)
    | value text =>
      simp only [Ending.step, Option.bind_map]
      rw [← Option.bind_assoc, ← Option.bind_assoc]
      exact asked_readArguments rest (hFlags.addOutput text)
    | help => exact asked_stop (fun _ hHelp => nomatch hHelp) hFlags
    | version => exact asked_stop (fun _ hVersion => nomatch hVersion) hFlags
    | refused => exact asked_refused

/-! ### `--check` among the arguments -/

theorem readArguments_check (rest : List String) (settings : Settings) :
    settings.readArguments ("--check" :: rest) =
      (settings.addFlag .check).bind (·.readArguments rest) := by
  have hRead : settings.readArgument "--check" = (settings.addFlag .check).map .next := rfl
  rw [readArguments_cons (by decide), hRead, Option.bind_map]
  rfl

/-- `--check` before the arguments, and without it. -/
theorem asked_check (settings : Settings) (arguments : List String) :
    Asked (settings.readArguments arguments) (settings.readArguments ("--check" :: arguments)) := by
  rw [readArguments_check]
  have hBeside : Beside (some settings) (settings.addFlag .check) := by
    rw [addFlag]
    split
    · next hOld => exact .twice hOld
    · next hNew => exact .both ⟨rfl, rfl, fun flag => List.mem_cons, hNew⟩
  exact asked_readArguments arguments hBeside

theorem length_paths {paths : List String} {settings : Settings} {job : Job}
    (h : settings.readArguments ("--" :: paths) = some (.translate job)) :
    paths.length = if settings.path?.isSome then 0 else 1 := by
  rw [readArguments_paths] at h
  obtain ⟨last, hLast, hAsked⟩ := Option.bind_eq_some_iff.mp h
  obtain ⟨_, hJob, -⟩ := Option.map_eq_some_iff.mp hAsked
  obtain ⟨path, hPath, -⟩ := Option.map_eq_some_iff.mp hJob
  have hOnce : ∀ {noted later : Settings} {text : String},
      noted.addPath text = some later → noted.path?.isSome = false ∧ later.path?.isSome := by
    intro noted later text hNoted
    rw [addPath] at hNoted
    split at hNoted
    · cases hNoted
    · next hFirst =>
      cases hNoted
      exact ⟨Bool.eq_false_iff.mpr fun hOld => hFirst (Or.inl hOld), rfl⟩
  match paths with
  | [] =>
    obtain rfl : settings = last := Option.some.inj hLast
    rw [hPath]
    rfl
  | [only] =>
    obtain ⟨_, hOnly, -⟩ := Option.bind_eq_some_iff.mp hLast
    rw [(hOnce hOnly).1]
    rfl
  | first :: second :: rest =>
    obtain ⟨_, hFirst, hLast⟩ := Option.bind_eq_some_iff.mp hLast
    rw [List.foldlM_cons] at hLast
    obtain ⟨_, hSecond, -⟩ := Option.bind_eq_some_iff.mp hLast
    exact absurd (hOnce hFirst).2 (Bool.eq_false_iff.mp (hOnce hSecond).1)

/-- No argument alone asks for a job. -/
theorem stop_ne_translate {argument : String} {settings : Settings} {request : Request}
    (h : settings.readArgument argument = some (.stop request)) (job : Job) :
    request ≠ .translate job := by
  obtain ⟨flags, ending, hRead⟩ := exists_reading argument
  rw [hRead] at h
  obtain ⟨noted, -, hStep⟩ := Option.bind_eq_some_iff.mp h
  rintro rfl
  cases ending with
  | path text =>
    obtain ⟨_, -, hNext⟩ := Option.map_eq_some_iff.mp hStep
    cases hNext
  | value text =>
    obtain ⟨_, -, hNext⟩ := Option.map_eq_some_iff.mp hStep
    cases hNext
  | next => cases hStep
  | output => cases hStep
  | help => cases hStep
  | version => cases hStep
  | refused => cases hStep

/-- **`--check` among the arguments** of a job adds the check to it, and nothing else. -/
theorem check_inserted {back : List String} {job other : Job} : ∀ (front : List String)
    {settings : Settings}, settings.readArguments (front ++ back) = some (.translate job) →
      settings.readArguments (front ++ "--check" :: back) = some (.translate other) →
        job.check = false ∧ other = { job with check := true }
  | [], settings, hWithout, hWith => by
    have hAsked := asked_check settings back
    rw [List.nil_append] at hWithout hWith
    rw [hWithout, hWith] at hAsked
    cases hAsked with
    | job hCheck => exact ⟨hCheck, rfl⟩
    | same hStop => exact absurd rfl (hStop _)
  | argument :: front, settings, hWithout, hWith => by
    rw [List.cons_append] at hWithout hWith
    by_cases hEnd : argument = "--"
    · -- behind `--` one of the two has a path too much
      subst hEnd
      have hLength := (length_paths hWith).trans (length_paths hWithout).symm
      rw [List.length_append, List.length_append, List.length_cons] at hLength
      omega
    · rw [readArguments_cons hEnd] at hWithout hWith
      obtain ⟨step, hStep, hGo⟩ := Option.bind_eq_some_iff.mp hWithout
      rw [hStep, Option.bind_some] at hWith
      cases step with
      | stop request => exact absurd (Option.some.inj hGo) (stop_ne_translate hStep job)
      | next noted => exact check_inserted front hGo hWith
      | output noted =>
        match front with
        | [] => cases hWith
        | value :: front =>
          rw [List.cons_append, goOn] at hGo hWith
          split at hGo
          · cases hGo
          · next hValue =>
            rw [if_neg hValue] at hWith
            obtain ⟨behind, hOutput, hGo⟩ := Option.bind_eq_some_iff.mp hGo
            rw [hOutput] at hWith
            exact check_inserted front hGo hWith

end Settings

namespace Request

/-- `--check` may be put before the arguments of a job without a check. -/
theorem ofArguments_cons_check {arguments : List String} {job : Job}
    (hJob : ofArguments arguments = some (.translate job)) (hCheck : job.check = false) :
    ofArguments ("--check" :: arguments) = some (.translate { job with check := true }) := by
  have hAsked : Asked (ofArguments arguments) (ofArguments ("--check" :: arguments)) :=
    Settings.asked_check {} arguments
  rw [hJob] at hAsked
  generalize ofArguments ("--check" :: arguments) = request? at hAsked ⊢
  cases hAsked with
  | job => rfl
  | same hStop => exact absurd rfl (hStop job)
  | twice hTwice =>
    rw [hTwice job rfl] at hCheck
    cases hCheck

end Request

end HackVm
