import HackVm.CommandLine.Run
import HackVm.Proofs.CheckFlag
import HackVm.Proofs.ListingOrder
import HackVm.Proofs.Reading
import HackVm.Proofs.WrittenFile

/-!
# The outcome of a run

A run that is asked to translate ends in one of two ways.  Either something failed before all of the
code was made; then the run leaves nothing but an exit code and a message.  Or the code was made,
and is written as a whole.

The outcome of a run is what it leaves but its messages: its exit code, its output and the tree.
`Job.outcome` tells it without the log and the check of the stack, so neither makes a difference to
it.

What may fail is told by what the path leads to: by the source files there (`IsSourceFile`), whether
each holds a text, and whether the lines of the text are commands.

* `sourceFiles_cases`: the files that are read are the source files, unless there is none.
* `fails_iff`: a translation fails if and only if finding, reading, parsing or translating does, for
  one file at least.
* `outcome_run`: the outcome of a run is that of its job.
* `run_all_or_nothing`: what becomes of the output and of the files, with `--check` or without it.
-/

namespace HackVm

/-! ### What may fail -/

section Failure

variable {options : Options} {path : String} {found : Except FileFault Found}

/-- A source file that a path leads to: the file on the path, or a file directly in the folder
there. -/
inductive IsSourceFile (path : String) (found : Except FileFault Found) : FoundFile → Prop
  | file {name : String} {contents : Except FileFault ByteArray} :
      found = .ok (.file contents) → pathName? path = some name → HasSourceName name →
        IsSourceFile path found ⟨path, contents⟩
  | entry {entries : List Entry} {name : String} {contents : Except FileFault ByteArray} :
      found = .ok (.folder entries) → ⟨name, some contents⟩ ∈ entries → HasSourceName name →
        IsSourceFile path found ⟨pathJoin path name, contents⟩

/-- Something fails on the way from what a path leads to to its code. -/
inductive Fails (options : Options) (path : String) (found : Except FileFault Found) : Prop
  /-- The path leads to nothing, or to no source file. -/
  | finding : (∀ file, ¬ IsSourceFile path found file) → Fails options path found
  /-- A source file cannot be read. -/
  | reading {file : FoundFile} {fault : FileFault} :
      IsSourceFile path found file → file.contents = .error fault → Fails options path found
  /-- The bytes of a source file are not UTF-8. -/
  | decoding {file : FoundFile} {bytes : ByteArray} :
      IsSourceFile path found file → file.contents = .ok bytes →
        (∀ text : String, text.toUTF8 ≠ bytes) → Fails options path found
  /-- A line of a source file is no command. -/
  | parsing {file : FoundFile} {source : Source} :
      IsSourceFile path found file → file.contents = .ok source.text.toUTF8 → ¬ source.Parses →
        Fails options path found
  /-- A command cannot be translated. -/
  | translating {sources : List Source} {parts : List Part} {error : Error} :
      loadSources path found = .ok sources → readSources sources = .ok parts →
        translateParts options parts = .error error → Fails options path found

/-- **The files that are read** are the source files that the path leads to. -/
theorem sourceFiles_cases (path : String) (found : Except FileFault Found) :
    (∃ error, sourceFiles path found = .error error ∧ ∀ file, ¬ IsSourceFile path found file) ∨
      ∃ files, sourceFiles path found = .ok files ∧ files ≠ [] ∧
        ∀ file, file ∈ files ↔ IsSourceFile path found file := by
  rcases found with fault | contents | entries
  · refine Or.inl ⟨_, rfl, ?_⟩
    rintro file (hFound | hFound) <;> cases hFound
  · by_cases hName : ∃ name, pathName? path = some name ∧ HasSourceName name
    · obtain ⟨name, hPath, hSource⟩ := hName
      refine Or.inr ⟨[⟨path, contents⟩], ?_, List.cons_ne_nil _ _, fun file => ?_⟩
      · rw [sourceFiles, hPath, Option.any_some, isSourceName_iff.mpr hSource, if_pos rfl]
      · rw [List.mem_singleton]
        constructor
        · rintro rfl
          exact .file rfl hPath hSource
        · rintro (hFound | hFound)
          · cases hFound
            rfl
          · cases hFound
    · refine Or.inl ⟨.notSource path, ?_, ?_⟩
      · rw [sourceFiles, if_neg]
        rw [Option.any_eq_true]
        rintro ⟨name, hPath, hSource⟩
        exact hName ⟨name, hPath, isSourceName_iff.mp hSource⟩
      · rintro file (⟨-, hPath, hSource⟩ | hFound)
        · exact hName ⟨_, hPath, hSource⟩
        · cases hFound
  · rw [sourceFiles_folder]
    by_cases hNone : sortedSources entries = []
    · refine Or.inl ⟨_, if_pos hNone, ?_⟩
      rintro file (hFound | ⟨hFound, hMem, hSource⟩)
      · cases hFound
      · cases hFound
        exact sortedSources_eq_nil_iff.mp hNone _ hMem ⟨rfl, hSource⟩
    · refine Or.inr ⟨_, if_neg hNone, mt List.map_eq_nil_iff.mp hNone, fun file => ?_⟩
      rw [List.mem_map]
      constructor
      · rintro ⟨⟨name, contents⟩, hMem, rfl⟩
        obtain ⟨hEntry, hSource⟩ := mem_sortedSources.mp hMem
        exact .entry rfl hEntry hSource
      · rintro (hFound | ⟨hFound, hMem, hSource⟩)
        · cases hFound
        · cases hFound
          exact ⟨_, mem_sortedSources.mpr ⟨hMem, hSource⟩, rfl⟩

theorem mem_sourceFiles {files : List FoundFile} {file : FoundFile}
    (h : sourceFiles path found = .ok files) : file ∈ files ↔ IsSourceFile path found file := by
  obtain ⟨_, hError, -⟩ | ⟨others, hOthers, -, hMem⟩ := sourceFiles_cases path found
  · rw [h] at hError
    cases hError
  · rw [h] at hOthers
    rw [Except.ok.inj hOthers]
    exact hMem file

theorem decodeText_eq_ok {bytes : ByteArray} {text : String} :
    decodeText bytes = .ok text ↔ bytes = text.toUTF8 := by
  rw [decodeText, String.fromUTF8?]
  split
  · next decoded hDecoded =>
    split at hDecoded
    · cases hDecoded
      rw [Except.ok.injEq, ← String.toByteArray_inj]
      rfl
    · cases hDecoded
  · next hNone =>
    split at hNone
    · cases hNone
    · next hInvalid =>
      refine iff_of_false nofun ?_
      rintro rfl
      exact hInvalid text.isValidUTF8

theorem bind_decodeText_eq_ok {contents : Except FileFault ByteArray} {text : String} :
    contents.bind decodeText = .ok text ↔ contents = .ok text.toUTF8 := by
  cases contents with
  | error fault => exact iff_of_false nofun nofun
  | ok bytes =>
    rw [Except.ok.injEq]
    exact decodeText_eq_ok

/-- A file is read as a source file if its bytes are those of the text. -/
theorem FoundFile.source_eq_ok {file : FoundFile} {source : Source} (h : file.source = .ok source) :
    file.contents = .ok source.text.toUTF8 := by
  rw [FoundFile.source] at h
  cases hText : file.contents.bind decodeText with
  | error fault =>
    rw [hText] at h
    cases h
  | ok text =>
    rw [hText] at h
    rw [← Except.ok.inj h]
    exact bind_decodeText_eq_ok.mp hText

theorem FoundFile.source_isOk {file : FoundFile} {text : String}
    (h : file.contents = .ok text.toUTF8) : ∃ source, file.source = .ok source := by
  rw [FoundFile.source, bind_decodeText_eq_ok.mpr h]
  exact ⟨_, rfl⟩

/-- Whether the lines of a file are commands is a question of its text. -/
theorem Source.parses_congr {source other : Source} (h : source.text = other.text)
    (hParses : source.Parses) : other.Parses := by
  intro number line hLine
  refine hParses number line ?_
  rw [Source.HasLine, h]
  exact hLine

theorem translateFound_eq_ok {code : Code} : translateFound options path found = .ok code ↔
    ∃ files sources parts, sourceFiles path found = .ok files ∧
      files.mapM FoundFile.source = .ok sources ∧ readSources sources = .ok parts ∧
      translateParts options parts = .ok code := by
  simp only [translateFound, loadSources, translate, bind_eq_ok]
  constructor
  · rintro ⟨sources, ⟨files, hFiles, hSources⟩, parts, hParts, hCode⟩
    exact ⟨files, sources, parts, hFiles, hSources, hParts, hCode⟩
  · rintro ⟨files, sources, parts, hFiles, hSources, hParts, hCode⟩
    exact ⟨sources, ⟨files, hFiles, hSources⟩, parts, hParts, hCode⟩

theorem Fails.not_ok (h : Fails options path found) (code : Code) :
    translateFound options path found ≠ .ok code := by
  intro hCode
  obtain ⟨files, sources, parts, hFiles, hSources, hParts, hCode⟩ := translateFound_eq_ok.mp hCode
  have hLoad : loadSources path found = .ok sources := bind_eq_ok.mpr ⟨files, hFiles, hSources⟩
  obtain ⟨_, hError, -⟩ | ⟨others, hOthers, hFull, hMem⟩ := sourceFiles_cases path found
  · rw [hFiles] at hError
    cases hError
  rw [hFiles] at hOthers
  obtain rfl := Except.ok.inj hOthers
  -- Every source file was read, and all that was read are commands.
  have hRead : ∀ file, IsSourceFile path found file →
      ∃ source ∈ sources, file.source = .ok source :=
    fun file hFile => exists_of_forall₂ (mapM_eq_ok_iff.mp hSources) ((hMem file).mpr hFile)
  cases h with
  | finding hNone =>
    obtain ⟨file, hFile⟩ := List.exists_mem_of_ne_nil files hFull
    exact hNone file ((hMem file).mp hFile)
  | reading hFile hFault =>
    obtain ⟨source, -, hSource⟩ := hRead _ hFile
    rw [FoundFile.source_eq_ok hSource] at hFault
    cases hFault
  | decoding hFile hBytes hNoText =>
    obtain ⟨source, -, hSource⟩ := hRead _ hFile
    rw [FoundFile.source_eq_ok hSource] at hBytes
    exact hNoText source.text (Except.ok.inj hBytes)
  | parsing hFile hText hNoCommand =>
    obtain ⟨source, hMem, hSource⟩ := hRead _ hFile
    rw [FoundFile.source_eq_ok hSource] at hText
    obtain ⟨part, -, hPart⟩ := exists_of_forall₂ (mapM_eq_ok_iff.mp hParts) hMem
    have hSame := String.toByteArray_inj.mp (Except.ok.inj hText)
    exact hNoCommand (Source.parses_congr hSame (Source.isPart_of_read hPart).1)
  | translating hLoaded hRead hError =>
    rw [hLoad] at hLoaded
    cases hLoaded
    rw [hParts] at hRead
    cases hRead
    rw [hCode] at hError
    cases hError

theorem fails_of_error {error : Error} (h : translateFound options path found = .error error) :
    Fails options path found := by
  simp only [translateFound, translate, bind_eq_error] at h
  rcases h with hLoad | ⟨sources, hLoad, hRead | ⟨parts, hParts, hError⟩⟩
  · rw [loadSources, bind_eq_error] at hLoad
    rcases hLoad with hFind | ⟨files, hFiles, hRead⟩
    · obtain ⟨_, -, hNone⟩ | ⟨_, hFiles, -⟩ := sourceFiles_cases path found
      · exact .finding hNone
      · rw [hFind] at hFiles
        cases hFiles
    · obtain ⟨_, file, _, rfl, -, hError⟩ := mapM_eq_error_iff.mp hRead
      have hFile := (mem_sourceFiles hFiles).mp (List.mem_append_right _ List.mem_cons_self)
      cases hContents : file.contents with
      | error fault => exact .reading hFile hContents
      | ok bytes =>
        refine .decoding hFile hContents ?_
        rintro text rfl
        obtain ⟨source, hSource⟩ := FoundFile.source_isOk hContents
        rw [hError] at hSource
        cases hSource
  · obtain ⟨_, source, _, rfl, -, hError⟩ := mapM_eq_error_iff.mp hRead
    obtain ⟨files, hFiles, hSources⟩ := bind_eq_ok.mp hLoad
    obtain ⟨file, hMem, hSource⟩ := exists_of_forall₂ (mapM_eq_ok_iff.mp hSources).flip
      (List.mem_append_right _ List.mem_cons_self)
    refine .parsing ((mem_sourceFiles hFiles).mp hMem) (FoundFile.source_eq_ok hSource) ?_
    intro hParses
    obtain ⟨part, hPart⟩ := Source.exists_read_of_parses hParses
    rw [hError] at hPart
    cases hPart
  · exact .translating hLoad hParts hError

/-- **A translation fails** if and only if one of its steps does. -/
theorem fails_iff :
    Fails options path found ↔ ∃ error, translateFound options path found = .error error := by
  constructor
  · intro h
    cases hResult : translateFound options path found with
    | error error => exact ⟨error, rfl⟩
    | ok code => exact absurd hResult (h.not_ok code)
  · rintro ⟨error, h⟩
    exact fails_of_error h

end Failure

/-! ### The outcome of a job -/

/-- What is left of a run but its messages. -/
structure Outcome where
  code : Nat
  output : String
  tree : Tree

/-- The outcome of a run that gave a response and left a tree. -/
def outcome (result : Response × Tree) : Outcome :=
  ⟨result.1.code, result.1.output, result.2⟩

namespace Job

/-- What a job comes to on a tree. -/
def outcome (job : Job) (tree : Tree) : Outcome :=
  match translateFound job.options job.path (tree.find job.path) with
  | .error _ => ⟨1, "", tree⟩
  | .ok code =>
    match job.output? with
    | none => ⟨0, render code, tree⟩
    | some path =>
      match tree.write path (render code).toUTF8 with
      | .ok written => ⟨0, "", written⟩
      | .error _ => ⟨1, "", tree⟩

theorem result_of_error {job : Job} {found : Except FileFault Found} {error : Error}
    (h : translateFound job.options job.path found = .error error) :
    job.result found = .error error := by
  rw [translateFound, bind_eq_error] at h
  rw [result, bind_eq_error]
  rcases h with hLoad | ⟨sources, hLoad, hTranslate⟩
  · exact Or.inl hLoad
  · exact Or.inr ⟨sources, hLoad, bind_eq_error.mpr (Or.inl hTranslate)⟩

theorem result_of_ok {job : Job} {found : Except FileFault Found} {code : Code}
    (h : translateFound job.options job.path found = .ok code) :
    ∃ files, job.result found = .ok ⟨render code, code.length, files⟩ := by
  rw [translateFound, bind_eq_ok] at h
  obtain ⟨sources, hLoad, hTranslate⟩ := h
  exact ⟨sources.length, bind_eq_ok.mpr ⟨sources, hLoad, bind_eq_ok.mpr ⟨code, hTranslate, rfl⟩⟩⟩

end Job

/-- **The outcome of a run** is that of the job which its arguments ask for. -/
theorem outcome_run {tree : Tree} {arguments : List String} {job : Job} (setting? : Option String)
    (hJob : Request.ofArguments arguments = some (.translate job)) :
    outcome (run tree setting? arguments) = job.outcome tree := by
  simp only [run, hJob, Job.plan, Job.outcome]
  cases hCode : translateFound job.options job.path (tree.find job.path) with
  | error error =>
    rw [Job.result_of_error hCode]
    rfl
  | ok code =>
    obtain ⟨files, hResult⟩ := Job.result_of_ok hCode
    rw [hResult]
    cases hOutput : job.output? with
    | none => rfl
    | some target =>
      cases hWrite : tree.write target (render code).toUTF8 with
      | ok written => simp only [hWrite]; rfl
      | error fault => simp only [hWrite]; rfl

/-! ### Nothing by halves -/

section Run

variable {tree : Tree} {arguments : List String} {job : Job}

/-- Jobs that differ in their check only have one outcome, whatever is logged. -/
theorem outcome_run_eq {others : List String} {check : Bool} (setting? setting'? : Option String)
    (hJob : Request.ofArguments arguments = some (.translate job))
    (hOther : Request.ofArguments others = some (.translate { job with check })) :
    outcome (run tree setting'? others) = outcome (run tree setting? arguments) := by
  rw [outcome_run setting'? hOther, outcome_run setting? hJob]
  rfl

/-- **All or nothing.**  If a step of the translation fails, a run exits with `1`, and nothing is
written.  Otherwise the code is written as a whole: to the standard output, or to the file that is
asked for, and to nothing else; a run that cannot write it exits with `1`.  `--check` among the
arguments makes no difference to any of this. -/
theorem run_all_or_nothing (hJob : Request.ofArguments arguments = some (.translate job))
    (setting? : Option String) :
    (Fails job.options job.path (tree.find job.path) →
      outcome (run tree setting? arguments) = ⟨1, "", tree⟩) ∧
    (¬ Fails job.options job.path (tree.find job.path) →
      ∃ code, translateFound job.options job.path (tree.find job.path) = .ok code ∧
        (job.output? = none → outcome (run tree setting? arguments) = ⟨0, render code, tree⟩) ∧
        ∀ target, job.output? = some target →
          (∀ written, tree.write target (render code).toUTF8 = .ok written →
            outcome (run tree setting? arguments) = ⟨0, "", written⟩ ∧
              tree.WithFile target (render code).toUTF8 written) ∧
          (∀ fault, tree.write target (render code).toUTF8 = .error fault →
            (outcome (run tree setting? arguments)).code = 1 ∧
              (outcome (run tree setting? arguments)).output = "")) ∧
    (∀ front back other setting'?, arguments = front ++ back →
      Request.ofArguments (front ++ "--check" :: back) = some (.translate other) →
        outcome (run tree setting'? (front ++ "--check" :: back)) =
          outcome (run tree setting? arguments)) ∧
    (job.check = false → ∃ other,
      Request.ofArguments ("--check" :: arguments) = some (.translate other)) := by
  have hOutcome := @outcome_run tree arguments job setting? hJob
  refine ⟨fun hFails => ?_, fun hFails => ?_, ?_, fun hCheck => ?_⟩
  · obtain ⟨error, hError⟩ := fails_iff.mp hFails
    rw [hOutcome, Job.outcome, hError]
  · cases hCode : translateFound job.options job.path (tree.find job.path) with
    | error error => exact absurd (fails_iff.mpr ⟨error, hCode⟩) hFails
    | ok code =>
      rw [Job.outcome, hCode] at hOutcome
      refine ⟨code, rfl, fun hOutput => ?_, fun target hOutput => ⟨fun written hWrite => ?_,
        fun fault hWrite => ?_⟩⟩
      · rw [hOutcome, hOutput]
      · refine ⟨?_, Tree.withFile_of_write hWrite⟩
        simp only [hOutcome, hOutput, hWrite]
      · simp only [hOutcome, hOutput, hWrite, true_and]
  · rintro front back other setting'? rfl hOther
    obtain ⟨-, rfl⟩ := Settings.check_inserted front hJob hOther
    exact outcome_run_eq setting? setting'? hJob hOther
  · exact ⟨_, Request.ofArguments_cons_check hJob hCheck⟩

/-- A folder of two source files, the last of which cannot be parsed, and a file of code. -/
def brokenFolder : Tree where
  nodes := [(["prog"], .folder), (["Main.vm", "prog"], .file (.ok "add".toUTF8)),
    (["Sum.vm", "prog"], .file (.ok "ad".toUTF8)), (["out.asm"], .file (.ok "@0".toUTF8))]

/-- Translating the folder leaves the file of code as it is.  Translating the first file replaces
it, although the check finds a problem there. -/
theorem kept_or_replaced :
    outcome (run brokenFolder none ["prog", "-o", "out.asm"]) = ⟨1, "", brokenFolder⟩ ∧
    ∃ written,
      brokenFolder.WithFile "out.asm" (render (.comment "add" :: BinaryOp.add.code)).toUTF8
        written ∧
      outcome (run brokenFolder none
        ["prog/Main.vm", "--check", "-o", "out.asm", "--no-bootstrap"]) = ⟨0, "", written⟩ := by
  obtain ⟨hFolder, hFile, hFileChecked⟩ :
      Request.ofArguments ["prog", "-o", "out.asm"] =
        some (.translate ⟨"prog", some "out.asm", {}, false, false⟩) ∧
      Request.ofArguments ["prog/Main.vm", "-o", "out.asm", "--no-bootstrap"] =
        some (.translate ⟨"prog/Main.vm", some "out.asm", ⟨false, true⟩, false, false⟩) ∧
      Request.ofArguments ["prog/Main.vm", "--check", "-o", "out.asm", "--no-bootstrap"] =
        some (.translate ⟨"prog/Main.vm", some "out.asm", ⟨false, true⟩, true, false⟩) := by
    refine ⟨?_, ?_, ?_⟩ <;>
      simp [Request.ofArguments, Settings.readArguments, Settings.readArgument, Settings.readName,
        Settings.readLetters, Settings.looksLikeOption, Settings.addFlag, Settings.addPath,
        Settings.addOutput, Settings.job?]
  constructor
  · have hFound : brokenFolder.find "prog" = .ok (.folder
        [⟨"Main.vm", some (.ok "add".toUTF8)⟩, ⟨"Sum.vm", some (.ok "ad".toUTF8)⟩]) := by
      rw [Tree.find, Tree.checkPath_eq_ok.mpr (by decide)]
      rfl
    have hFile : IsSourceFile "prog" (brokenFolder.find "prog")
        ⟨"prog/Sum.vm", .ok "ad".toUTF8⟩ :=
      .entry hFound (List.mem_cons_of_mem _ List.mem_cons_self) ⟨"Sum", by decide, rfl⟩
    have hNoCommand : ¬ (⟨"Sum", "Sum.vm", "ad"⟩ : Source).Parses := by
      intro hParses
      obtain ⟨command, hCommand⟩ :=
        hParses 1 ['a', 'd'] ⟨['a', 'd'], Nat.le_refl 1, rfl, rfl, List.cons_ne_nil _ _⟩
      have hUnread : Command.read ['a', 'd'] = .error .unrecognized := rfl
      rw [hUnread] at hCommand
      cases hCommand
    refine (run_all_or_nothing hFolder none).1 (.parsing hFile ?_ hNoCommand)
    rfl
  · have hCode : translateFound ⟨false, true⟩ "prog/Main.vm" (brokenFolder.find "prog/Main.vm") =
        .ok (.comment "add" :: BinaryOp.add.code) := by
      rw [Tree.find, Tree.checkPath_eq_ok.mpr (by decide)]
      rfl
    have hWrite : ∀ bytes, brokenFolder.write "out.asm" bytes =
        .ok (brokenFolder.put ["out.asm"] (.file (.ok bytes))) := by
      intro bytes
      rw [Tree.write, Tree.checkPath_eq_ok.mpr (by decide)]
      rfl
    obtain ⟨-, hTranslated, hCheck, -⟩ := @run_all_or_nothing brokenFolder _ _ hFile none
    obtain ⟨code, hSame, -, hTarget⟩ := hTranslated fun hFails => hFails.not_ok _ hCode
    obtain rfl : code = .comment "add" :: BinaryOp.add.code :=
      Except.ok.inj (hSame.symm.trans hCode)
    obtain ⟨hRun, hWithFile⟩ := (hTarget "out.asm" rfl).1 _ (hWrite _)
    refine ⟨_, hWithFile, ?_⟩
    exact (hCheck ["prog/Main.vm"] ["-o", "out.asm", "--no-bootstrap"] _ none rfl
      hFileChecked).trans hRun

end Run

end HackVm
