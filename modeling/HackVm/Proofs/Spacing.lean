import HackVm.Proofs.Grammar
import HackVm.Proofs.Layout

/-!
# Blanks between tokens

A line with something on it is a row of tokens with gaps between them (`TokenLine`).  The gaps may
hold blanks of any kind, but only spaces and tabs part the words of a command: a line of tokens
spells a command exactly if its tokens are the words of the command and its gaps are plain
(`TokenLine.spells_iff`).  So where the gaps of a command are replaced by others, it is the same
command, or no command at all.

* `Spells.exists_tokenLine`: a line that spells a command is a line of tokens.
* `TokenLine.content_text`: a line of tokens says its tokens and its gaps.
* `contents_around`: what a text says around one of its lines.
* `gaps_of_command`: a text in which the gaps of one line are replaced.
-/

namespace HackVm

open Text

/-! ### The words of commands -/

/-- The characters of the words of commands. -/
def wordAlphabet : List Char :=
  '-' :: nameAlphabet

theorem isBlank_of_mem_wordAlphabet {c : Char} (h : c ∈ wordAlphabet) : isBlank c = false := by
  have hAll : (wordAlphabet.all fun c => !isBlank c) = true := by decide
  simpa using List.all_eq_true.mp hAll c h

theorem Keyword.text_subset (keyword : Keyword) : keyword.text.toList ⊆ wordAlphabet := by
  have hAll : ∀ keyword ∈ Keyword.all, keyword.text.toList ⊆ wordAlphabet := by decide
  exact hAll keyword keyword.mem_all

theorem Segment.text_subset (segment : Segment) : segment.text.toList ⊆ wordAlphabet := by
  have hAll : ∀ segment ∈ Segment.all, segment.text.toList ⊆ wordAlphabet := by decide
  exact hAll segment segment.mem_all

theorem IsName.subset {name : String} (h : IsName name) : name.toList ⊆ wordAlphabet :=
  fun c hc => List.mem_cons_of_mem _ (h.mem_alphabet c hc)

theorem IsNumber.subset {word : List Char} {number : Word} (h : IsNumber word number) :
    word ⊆ wordAlphabet :=
  fun c hc => List.mem_cons_of_mem _
    (List.mem_append_right _ (isDigit_iff.mp (h.numeral.isDigit c hc)))

theorem Command.Takes.subset {command : Command} {operands : List (List Char)}
    (h : command.Takes operands) :
    ∀ word ∈ command.keyword.text.toList :: operands, word ⊆ wordAlphabet := by
  refine List.forall_mem_cons.mpr ⟨command.keyword.text_subset, ?_⟩
  cases h with
  | push h | pop h => simpa using ⟨Segment.text_subset _, h.subset⟩
  | label h | goto h | ifGoto h => simpa using h.subset
  | function h hCount | call h hCount => simpa using ⟨h.subset, hCount.subset⟩
  | unary _ | binary _ | compare _ | ret => nofun

theorem Text.Joined.mem_cases {words : List (List Char)} {line : List Char} (h : Joined words line)
    {c : Char} (hc : c ∈ line) :
    isGap c = true ∨ ∃ word ∈ words, c ∈ word := by
  induction h with
  | one line => exact Or.inr ⟨line, List.mem_cons_self, hc⟩
  | cons word hGap hRest ih =>
    rcases List.mem_append.mp hc with hWord | hLater
    · exact Or.inr ⟨word, List.mem_cons_self, hWord⟩
    · rcases List.mem_append.mp hLater with hHere | hLine
      · exact Or.inl (isGap_iff.mpr (hGap.spaceOrTab c hHere))
      · rcases ih hLine with hBlank | ⟨other, hOther, hMem⟩
        · exact Or.inl hBlank
        · exact Or.inr ⟨other, List.mem_cons_of_mem _ hOther, hMem⟩

theorem Spells.mem_cases {line : List Char} {command : Command} (h : Spells line command) {c : Char}
    (hc : c ∈ line) : isGap c = true ∨ c ∈ wordAlphabet := by
  obtain ⟨operands, hTakes, hJoined⟩ := h
  rcases hJoined.mem_cases hc with hGap | ⟨word, hWord, hMem⟩
  · exact Or.inl hGap
  · exact Or.inr (hTakes.subset word hWord hMem)

/-! ### Lines of tokens -/

/-- Tokens one behind the other, each with the gap in front of it. -/
def spaced (rest : List (List Char × List Char)) : List Char :=
  rest.flatMap fun (gap, token) => gap ++ token

theorem spaced_cons (pair : List Char × List Char) (rest : List (List Char × List Char)) :
    spaced (pair :: rest) = pair.1 ++ (pair.2 ++ spaced rest) := by
  simp [spaced]

/-- A run of characters of which none is blank and none can start a comment. -/
structure IsToken (token : List Char) : Prop where
  ne_nil : token ≠ []
  isBlank_eq_false : ∀ c ∈ token, isBlank c = false
  no_slash : '/' ∉ token

instance (token : List Char) : Decidable (IsToken token) :=
  decidable_of_iff (token ≠ [] ∧ token.all (!isBlank ·) = true ∧ '/' ∉ token)
    ⟨fun ⟨hFull, hBlank, hSlash⟩ => ⟨hFull, by simpa using hBlank, hSlash⟩,
      fun h => ⟨h.ne_nil, by simpa using h.isBlank_eq_false, h.no_slash⟩⟩

instance (blanks : List Char) : Decidable (LineBlanks blanks) :=
  decidable_of_iff (blanks.all isBlank = true ∧ '\n' ∉ blanks)
    ⟨fun ⟨hBlank, hLine⟩ => ⟨List.all_eq_true.mp hBlank, hLine⟩,
      fun h => ⟨List.all_eq_true.mpr h.isBlank, h.one_line⟩⟩

/-- A line of tokens: indentation, the tokens with gaps between them, blanks and a comment. -/
structure TokenLine where
  indent : List Char
  first : List Char
  /-- The other tokens, each behind the gap in front of it. -/
  rest : List (List Char × List Char)
  trail : List Char
  comment : List Char
  indent_blank : LineBlanks indent
  first_token : IsToken first
  rest_token : ∀ pair ∈ rest, IsToken pair.2
  gap_blank : ∀ pair ∈ rest, pair.1 ≠ [] ∧ LineBlanks pair.1
  trail_blank : LineBlanks trail
  comment_start : comment = [] ∨ slashes <+: comment
  comment_line : '\n' ∉ comment

namespace TokenLine

variable (line : TokenLine)

/-- The tokens of the line. -/
def tokens : List (List Char) :=
  line.first :: line.rest.map Prod.snd

/-- What the line says. -/
def laid : List Char :=
  line.first ++ spaced line.rest

/-- The line as it stands in a text. -/
def text : List Char :=
  line.indent ++ (line.laid ++ (line.trail ++ line.comment))

/-- There are only spaces and tabs in the gaps. -/
def Plain : Prop :=
  ∀ pair ∈ line.rest, ∀ c ∈ pair.1, c = ' ' ∨ c = '\t'

instance : Decidable line.Plain :=
  decidable_of_iff (line.rest.all (·.1.all isGap) = true) (by simp [Plain, isGap_iff])

end TokenLine

theorem IsToken.lineFeed_not_mem {token : List Char} (h : IsToken token) : '\n' ∉ token :=
  fun hMem => absurd (h.isBlank_eq_false _ hMem) (by decide)

theorem Command.Takes.isToken {command : Command} {operands : List (List Char)}
    (h : command.Takes operands) :
    ∀ word ∈ command.keyword.text.toList :: operands, IsToken word := by
  intro word hWord
  have hFull : IsWord word :=
    List.forall_mem_cons.mpr ⟨command.keyword.isWord_text, h.isWord⟩ word hWord
  have hAlphabet := h.subset word hWord
  exact ⟨hFull.ne_nil, fun c hc => isBlank_of_mem_wordAlphabet (hAlphabet hc),
    fun hSlash => absurd (hAlphabet hSlash) (by decide)⟩

theorem IsToken.isWord {token : List Char} (h : IsToken token) : IsWord token := by
  refine ⟨h.ne_nil, fun c hc => ?_⟩
  rw [← Bool.not_eq_true]
  intro hGap
  have hBlank := isBlank_of_isGap hGap
  rw [h.isBlank_eq_false c hc] at hBlank
  cases hBlank

theorem joined_spaced {rest : List (List Char × List Char)}
    (hGaps : ∀ pair ∈ rest, Gap pair.1) : ∀ first : List Char,
      Joined (first :: rest.map Prod.snd) (first ++ spaced rest) := by
  induction rest with
  | nil =>
    intro first
    rw [spaced, List.flatMap_nil, List.append_nil]
    exact .one first
  | cons pair rest ih =>
    intro first
    obtain ⟨hGap, hRest⟩ := List.forall_mem_cons.mp hGaps
    rw [spaced_cons]
    exact .cons first hGap (ih hRest pair.2)

/-- A line of words is its first word and the others, each with the gap in front of it. -/
theorem exists_spaced_of_joined {words : List (List Char)} {line : List Char}
    (h : Joined words line) : ∃ first rest, line = first ++ spaced rest ∧
      words = first :: rest.map Prod.snd ∧ ∀ pair ∈ rest, Gap pair.1 := by
  induction h with
  | one word => exact ⟨word, [], by simp [spaced], rfl, nofun⟩
  | @cons word gap line words hGap hRest ih =>
    obtain ⟨first, rest, rfl, rfl, hGaps⟩ := ih
    exact ⟨word, (gap, first) :: rest, by rw [spaced_cons], rfl,
      List.forall_mem_cons.mpr ⟨hGap, hGaps⟩⟩

namespace TokenLine

variable {line : TokenLine} {command : Command}

theorem isToken {token : List Char} (h : token ∈ line.tokens) : IsToken token := by
  rcases List.mem_cons.mp h with rfl | hRest
  · exact line.first_token
  · obtain ⟨pair, hPair, rfl⟩ := List.mem_map.mp hRest
    exact line.rest_token pair hPair

theorem mem_laid {c : Char} (h : c ∈ line.laid) :
    (∃ pair ∈ line.rest, c ∈ pair.1) ∨ ∃ token ∈ line.tokens, c ∈ token := by
  rcases List.mem_append.mp h with hFirst | hRest
  · exact Or.inr ⟨line.first, List.mem_cons_self, hFirst⟩
  · obtain ⟨pair, hPair, hMem⟩ := List.mem_flatMap.mp hRest
    rcases List.mem_append.mp hMem with hGap | hToken
    · exact Or.inl ⟨pair, hPair, hGap⟩
    · exact Or.inr ⟨pair.2, List.mem_cons_of_mem _ (List.mem_map_of_mem hPair), hToken⟩

theorem mem_laid_of_gap {pair : List Char × List Char} (h : pair ∈ line.rest) {c : Char}
    (hc : c ∈ pair.1) : c ∈ line.laid :=
  List.mem_append_right _ (List.mem_flatMap.mpr ⟨pair, h, List.mem_append_left _ hc⟩)

/-- A command is spelled with plain gaps only: the blanks in it are spaces and tabs. -/
theorem plain_of_spells (h : Spells line.laid command) : line.Plain := by
  intro pair hPair c hc
  have hBlank := (line.gap_blank pair hPair).2.isBlank c hc
  rcases h.mem_cases (mem_laid_of_gap hPair hc) with hGap | hLetter
  · exact isGap_iff.mp hGap
  · rw [isBlank_of_mem_wordAlphabet hLetter] at hBlank
    cases hBlank

theorem Plain.joined (h : line.Plain) : Joined line.tokens line.laid :=
  joined_spaced (fun pair hPair => ⟨(line.gap_blank pair hPair).1, h pair hPair⟩) line.first

/-- **The command of a line of tokens**: its tokens are the words of the command, and its gaps are
spaces and tabs. -/
theorem spells_iff : Spells line.laid command ↔ line.Plain ∧ ∃ operands,
    line.tokens = command.keyword.text.toList :: operands ∧ command.Takes operands := by
  constructor
  · intro h
    have hPlain := plain_of_spells h
    obtain ⟨operands, hTakes, hJoined⟩ := h
    have hFields := fields_of_joined hJoined fun word hWord => (hTakes.isToken word hWord).isWord
    rw [fields_of_joined hPlain.joined fun token hToken => (isToken hToken).isWord] at hFields
    exact ⟨hPlain, operands, hFields, hTakes⟩
  · rintro ⟨hPlain, operands, hTokens, hTakes⟩
    exact ⟨operands, hTakes, hTokens ▸ hPlain.joined⟩

/-! ### What the line says -/

theorem slash_not_mem_laid : '/' ∉ line.laid := by
  intro h
  rcases mem_laid h with ⟨pair, hPair, hMem⟩ | ⟨token, hToken, hMem⟩
  · exact slash_not_mem_blanks (line.gap_blank pair hPair).2.isBlank hMem
  · exact (isToken hToken).no_slash hMem

theorem lineFeed_not_mem_text : '\n' ∉ line.text := by
  have hLaid : '\n' ∉ line.laid := by
    intro h
    rcases mem_laid h with ⟨pair, hPair, hMem⟩ | ⟨token, hToken, hMem⟩
    · exact (line.gap_blank pair hPair).2.one_line hMem
    · exact (isToken hToken).lineFeed_not_mem hMem
  exact List.not_mem_append line.indent_blank.one_line (List.not_mem_append hLaid
    (List.not_mem_append line.trail_blank.one_line line.comment_line))

theorem laid_ne_nil : line.laid ≠ [] :=
  List.append_ne_nil_of_left_ne_nil line.first_token.ne_nil _

theorem getLast_spaced {rest : List (List Char × List Char)}
    (hRest : ∀ pair ∈ rest, IsToken pair.2) : ∀ {first : List Char}, IsToken first →
      ∀ c ∈ (first ++ spaced rest).getLast?, isBlank c = false := by
  induction rest with
  | nil =>
    intro first hFirst c hc
    rw [spaced, List.flatMap_nil, List.append_nil] at hc
    exact hFirst.isBlank_eq_false c (List.mem_of_mem_getLast? hc)
  | cons pair rest ih =>
    intro first hFirst c hc
    obtain ⟨hToken, hOthers⟩ := List.forall_mem_cons.mp hRest
    have hFull : pair.2 ++ spaced rest ≠ [] := List.append_ne_nil_of_left_ne_nil hToken.ne_nil _
    rw [spaced_cons, List.getLast?_append_of_ne_nil _ (by simp [hFull]),
      List.getLast?_append_of_ne_nil _ hFull] at hc
    exact ih hOthers hToken c hc

theorem trimmed_laid : Trimmed line.laid line.laid := by
  refine ⟨⟨[], [], by simp, nofun, nofun⟩, ?_, getLast_spaced line.rest_token line.first_token⟩
  intro c hc
  rw [laid, List.head?_append, List.head?_eq_some_head line.first_token.ne_nil, Option.some_or] at hc
  rw [← Option.mem_some.mp hc]
  exact line.first_token.isBlank_eq_false _ (List.head_mem _)

/-- **A line says its tokens**, with the gaps between them. -/
theorem content_text : content line.text = line.laid := by
  have hFront : content (line.laid ++ line.trail) = line.laid := by
    rw [content_append_blanks line.trail_blank.isBlank, content,
      beforeComment_of_not_mem slash_not_mem_laid]
    exact trim_eq_iff.mpr trimmed_laid
  rw [text, content_blanks_append line.indent_blank.isBlank, ← List.append_assoc]
  rcases line.comment_start with hNone | ⟨words, hComment⟩
  · rw [hNone, List.append_nil, hFront]
  · have hSlash : '/' ∉ (line.laid ++ line.trail).getLast? := fun h =>
      List.not_mem_append slash_not_mem_laid (slash_not_mem_blanks line.trail_blank.isBlank)
        (List.mem_of_mem_getLast? h)
    rw [← hComment, content_append_comment hSlash, hFront]

theorem firstToken_laid : FirstToken line.laid line.first := by
  have hRest : ∀ c ∈ (spaced line.rest).head?, isBlank c = true := by
    intro c hc
    cases hPairs : line.rest with
    | nil =>
      rw [hPairs] at hc
      cases hc
    | cons pair rest =>
      have hGap := line.gap_blank pair (hPairs ▸ List.mem_cons_self)
      rw [hPairs, spaced_cons, List.head?_append, List.head?_eq_some_head hGap.1,
        Option.some_or] at hc
      rw [← Option.mem_some.mp hc]
      exact hGap.2.isBlank _ (List.head_mem _)
  exact @FirstToken.word [] _ _ nofun line.first_token.ne_nil line.first_token.isBlank_eq_false hRest

end TokenLine

theorem Text.Gap.lineBlanks {gap : List Char} (h : Gap gap) : LineBlanks gap :=
  ⟨fun c hc => isBlank_of_isGap (isGap_iff.mpr (h.spaceOrTab c hc)),
    fun hMem => absurd (h.spaceOrTab _ hMem) (by decide)⟩

/-- **A line that spells a command** is a line of tokens, and so is the line with indentation, blanks
and a comment around it. -/
theorem Spells.exists_tokenLine {said : List Char} {command : Command} (h : Spells said command)
    {left right comment : List Char} (hLeft : LineBlanks left) (hRight : LineBlanks right)
    (hComment : comment = [] ∨ slashes <+: comment) (hLine : '\n' ∉ comment) :
    ∃ line : TokenLine, line.laid = said ∧ line.text = left ++ (said ++ (right ++ comment)) := by
  obtain ⟨operands, hTakes, hJoined⟩ := h
  obtain ⟨first, rest, rfl, hWords, hGaps⟩ := exists_spaced_of_joined hJoined
  obtain ⟨hFirst, hRest⟩ := List.forall_mem_cons.mp (hWords ▸ hTakes.isToken)
  let line : TokenLine :=
    { indent := left, first, rest, trail := right, comment
      indent_blank := hLeft
      first_token := hFirst
      rest_token := fun pair hPair => hRest _ (List.mem_map_of_mem hPair)
      gap_blank := fun pair hPair => ⟨(hGaps pair hPair).ne_nil, (hGaps pair hPair).lineBlanks⟩
      trail_blank := hRight
      comment_start := hComment
      comment_line := hLine }
  exact ⟨line, rfl, rfl⟩

/-- A line is what stands before its comment, and the comment. -/
theorem Text.Uncommented.exists_comment {line front : List Char} (h : Uncommented line front) :
    ∃ comment, line = front ++ comment ∧ (comment = [] ∨ slashes <+: comment) := by
  cases h with
  | plain => exact ⟨[], (List.append_nil line).symm, Or.inl rfl⟩
  | @comment front rest _ => exact ⟨slashes ++ rest, rfl, Or.inr (List.prefix_append _ _)⟩

/-- **Every line on which a command is read** is a line of tokens. -/
theorem exists_tokenLine_of_read {raw : List Char} {command : Command} (hLine : '\n' ∉ raw)
    (hRead : Command.read (content raw) = .ok command) : ∃ line : TokenLine, line.text = raw := by
  obtain ⟨comment, hComment, hStart⟩ := (uncommented_beforeComment raw).exists_comment
  obtain ⟨left, right, hFront, hLeft, hRight⟩ := (trimmed_trim (beforeComment raw)).between
  have hRaw : raw = left ++ (content raw ++ (right ++ comment)) := by
    rw [hFront] at hComment
    rw [content]
    simpa only [List.append_assoc] using hComment
  rw [hRaw] at hLine
  simp only [List.mem_append, not_or] at hLine
  obtain ⟨hIndent, -, hTrail, hEnd⟩ := hLine
  obtain ⟨line, -, hText⟩ := (Command.read_eq_ok.mp hRead).exists_tokenLine ⟨hLeft, hIndent⟩
    ⟨hRight, hTrail⟩ hStart hEnd
  exact ⟨line, hText.trans hRaw.symm⟩

/-! ### The line in a text -/

/-- **What a text says around one of its lines** does not depend on the line. -/
theorem contents_around {before after : List Char} (hStart : LineStart before)
    (hEnd : LineEnd after) : ∃ upper lower, ∀ line, '\n' ∉ line → content line ≠ [] →
      contents (before ++ (line ++ after)) =
        upper ++ (content line, before.count '\n' + 1) :: lower := by
  have hBelow : ∃ lower, ∀ line, '\n' ∉ line → content line ≠ [] →
      contents (line ++ after) = (content line, 1) :: lower := by
    rcases hEnd with rfl | ⟨below, rfl⟩
    · refine ⟨[], fun line hLine hFull => ?_⟩
      rw [List.append_nil, contents_of_line hLine hFull]
    · refine ⟨(contents below).map (Prod.map id (· + 1)), fun line hLine hFull => ?_⟩
      rw [contents_append, contents_of_line hLine hFull, List.count_eq_zero.mpr hLine]
      rfl
  obtain ⟨lower, hLower⟩ := hBelow
  rcases hStart with rfl | ⟨above, rfl⟩
  · exact ⟨[], lower, hLower⟩
  · refine ⟨contents above, lower.map (Prod.map id (· + (above.count '\n' + 1))),
      fun line hLine hFull => ?_⟩
    have hCount : (above ++ ['\n']).count '\n' = above.count '\n' + 1 := by
      rw [List.count_append]
      rfl
    rw [List.append_assoc, List.singleton_append, contents_append, hLower line hLine hFull, hCount,
      List.map_cons, Prod.map_apply, id, Nat.add_comm 1]

/-- A line is read between what stands above it and what stands below it. -/
theorem readContents_around (file : String) (upper lower : List (List Char × Nat))
    (said : List Char) (number : Nat) :
    readContents file (upper ++ (said, number) :: lower) = (do
      let above ← readContents file upper
      let s ← readLine ⟨file, number⟩ said
      let below ← readContents file lower
      return above ++ s :: below) := by
  rw [readContents, List.mapM_append, List.mapM_cons]
  simp only [readContents, bind_assoc, pure_bind]

/-- Another line in the place of a line that was read: the same statements, or its error. -/
theorem readContents_replace {file : String} {upper lower : List (List Char × Nat)}
    {said : List Char} {number : Nat} {statements : List Statement}
    (h : readContents file (upper ++ (said, number) :: lower) = .ok statements) :
    ∃ s, readLine ⟨file, number⟩ said = .ok s ∧ ∀ other,
      (readLine ⟨file, number⟩ other = .ok s →
        readContents file (upper ++ (other, number) :: lower) = .ok statements) ∧
      ∀ error, readLine ⟨file, number⟩ other = .error error →
        readContents file (upper ++ (other, number) :: lower) = .error error := by
  rw [readContents_around] at h
  cases hUpper : readContents file upper with
  | error error =>
    rw [hUpper] at h
    cases h
  | ok above =>
    cases hLine : readLine ⟨file, number⟩ said with
    | error error =>
      rw [hUpper, hLine] at h
      cases h
    | ok s =>
      refine ⟨s, rfl, fun other => ⟨fun hOther => ?_, fun error hOther => ?_⟩⟩
      · rw [readContents_around, hOther, ← hLine, h]
      · rw [readContents_around, hOther, hUpper]
        rfl

namespace TokenLine

variable {line other : TokenLine}

theorem words_of_readLine {position : Position} {s : Statement}
    (h : readLine position line.laid = .ok s) : ∃ operands,
      line.tokens = s.command.keyword.text.toList :: operands ∧ s.command.Takes operands :=
  (spells_iff.mp (Command.read_eq_ok.mp (Source.readLine_eq_ok_iff.mp h).1)).2

/-- Other plain gaps make the same command. -/
theorem readLine_of_plain (hTokens : line.tokens = other.tokens) (hPlain : other.Plain)
    {position : Position} {s : Statement} (h : readLine position line.laid = .ok s) :
    readLine position other.laid = .ok s := by
  obtain ⟨operands, hWords, hTakes⟩ := words_of_readLine h
  have hSpells := spells_iff.mpr ⟨hPlain, operands, hTokens ▸ hWords, hTakes⟩
  exact Source.readLine_eq_ok_iff.mpr
    ⟨Command.read_eq_ok.mpr hSpells, (Source.readLine_eq_ok_iff.mp h).2⟩

/-- A blank of another kind makes the line malformed. -/
theorem readLine_of_not_plain (hTokens : line.tokens = other.tokens) (hPlain : ¬ other.Plain)
    {position : Position} {s : Statement} (h : readLine position line.laid = .ok s) :
    readLine position other.laid = .error (.line position (String.ofList other.laid)
      (.malformed s.command.keyword)) := by
  obtain ⟨operands, hWords, -⟩ := words_of_readLine h
  have hFirst : other.first = s.command.keyword.text.toList :=
    (List.cons.inj (hTokens.symm.trans hWords)).1
  have hNone : ¬ ∃ command, Spells other.laid command :=
    fun ⟨_, hSpells⟩ => hPlain (plain_of_spells hSpells)
  have hFault : Command.read other.laid = .error (.malformed s.command.keyword) :=
    Command.read_eq_error.mpr ⟨hNone, other.first, firstToken_laid, hFirst.symm⟩
  exact Source.readLine_eq_error_iff.mpr ⟨_, hFault, rfl⟩

end TokenLine

/-- **The gaps of a command.**  Every line on which a command is read is a line of tokens with plain
gaps.  In a text that is read, the gaps of such a line may be replaced by others.  If these are made of
spaces and tabs, the same statements are read.  If another blank is among them, the line is malformed,
for the keyword that it had before and still has, and this is the error of the text. -/
theorem gaps_of_command (file : String) :
    (∀ raw command, '\n' ∉ raw → Command.read (content raw) = .ok command →
      ∃ line : TokenLine, line.text = raw ∧ line.Plain) ∧
    ∀ (before after : List Char) (line other : TokenLine) (statements : List Statement),
      LineStart before → LineEnd after → line.tokens = other.tokens →
      readText file (String.ofList (before ++ (line.text ++ after))) = .ok statements →
        (other.Plain →
          readText file (String.ofList (before ++ (other.text ++ after))) = .ok statements) ∧
        (¬ other.Plain → ∃ keyword : Keyword, keyword.text.toList = line.first ∧
          readText file (String.ofList (before ++ (other.text ++ after))) =
            .error (.line ⟨file, before.count '\n' + 1⟩ (String.ofList other.laid)
              (.malformed keyword))) := by
  refine ⟨?_, ?_⟩
  · intro raw command hLine hRead
    obtain ⟨line, rfl⟩ := exists_tokenLine_of_read hLine hRead
    rw [TokenLine.content_text] at hRead
    exact ⟨line, rfl, TokenLine.plain_of_spells (Command.read_eq_ok.mp hRead)⟩
  · intro before after line other statements hStart hEnd hTokens hRead
    obtain ⟨upper, lower, hContents⟩ := contents_around hStart hEnd
    have hText : ∀ line : TokenLine,
        readText file (String.ofList (before ++ (line.text ++ after))) =
          readContents file (upper ++ (line.laid, before.count '\n' + 1) :: lower) := by
      intro line
      have hSaid : content line.text = line.laid := TokenLine.content_text
      have hFull : content line.text ≠ [] := hSaid ▸ TokenLine.laid_ne_nil
      rw [readText_eq, String.toList_ofList, hContents _ TokenLine.lineFeed_not_mem_text hFull,
        hSaid]
    rw [hText] at hRead ⊢
    obtain ⟨s, hLine, hReplace⟩ := readContents_replace hRead
    obtain ⟨operands, hWords, -⟩ := TokenLine.words_of_readLine hLine
    refine ⟨fun hPlain => ?_, fun hPlain => ⟨s.command.keyword, (List.cons.inj hWords).1.symm, ?_⟩⟩
    · exact (hReplace other.laid).1 (TokenLine.readLine_of_plain hTokens hPlain hLine)
    · exact (hReplace other.laid).2 _ (TokenLine.readLine_of_not_plain hTokens hPlain hLine)

/-- A line with this gap behind its keyword. -/
def pushLine (gap : List Char) (hFull : gap ≠ []) (hBlank : LineBlanks gap) : TokenLine where
  indent := []
  first := "push".toList
  rest := [(gap, "constant".toList), ([' '], "7".toList)]
  trail := []
  comment := []
  indent_blank := by decide
  first_token := by decide
  rest_token := List.forall_mem_cons.mpr ⟨(by decide : IsToken "constant".toList), by decide⟩
  gap_blank := List.forall_mem_cons.mpr ⟨⟨hFull, hBlank⟩, by decide⟩
  trail_blank := by decide
  comment_start := Or.inl rfl
  comment_line := by decide

/-- Spaces and a tab part the words of a command, and a form feed does not. -/
theorem form_feed_malformed :
    readText "Test.vm" "push constant 7\n" = .ok [⟨⟨"Test.vm", 1⟩, .push .constant 7⟩] ∧
      readText "Test.vm" "push \tconstant 7\n" = .ok [⟨⟨"Test.vm", 1⟩, .push .constant 7⟩] ∧
      readText "Test.vm" "push\x0cconstant 7\n" =
        .error (.line ⟨"Test.vm", 1⟩ "push\x0cconstant 7" (.malformed .push)) := by
  let line := pushLine [' '] (by decide) (by decide)
  let tabbed := pushLine [' ', '\t'] (by decide) (by decide)
  let fed := pushLine ['\x0c'] (by decide) (by decide)
  have hRead : readText "Test.vm" "push constant 7\n" =
      .ok [⟨⟨"Test.vm", 1⟩, .push .constant 7⟩] := by decide
  have hText : ∀ other : TokenLine, line.tokens = other.tokens → _ :=
    fun other hTokens => (gaps_of_command "Test.vm").2 [] ['\n'] line other _ (Or.inl rfl)
      (Or.inr ⟨[], rfl⟩) hTokens hRead
  obtain ⟨keyword, hKeyword, hError⟩ := (hText fed rfl).2 (by decide)
  obtain rfl : Keyword.push = keyword :=
    Option.some.inj (Keyword.read?_eq_some.mpr hKeyword.symm)
  exact ⟨hRead, (hText tabbed rfl).1 (by decide), hError⟩

end HackVm
