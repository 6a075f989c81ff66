import Mathlib.Data.List.Induction
import Mathlib.Data.List.TakeWhile
import HackVm.Source

/-!
# The grammar of a line

What a line may be, said without the reader.  A line is a row of words with gaps between them
(`Text.Joined`); the first word is a keyword, and the others are the operands of a command with that
keyword (`Command.Takes`).  The reader has a fixed order in which it looks at a line: the keyword is
taken up to the first blank, of any kind, and the words are cut at spaces and tabs only.  Still it
takes a line for a command exactly if the line spells that command.

* `Text.decimal?_eq_some`: a text of digits is read as the number that it is the numeral of.
* `Text.joined_fields`, `Text.fields_of_joined`: the fields of a line are its words.
* `Command.ofFields?_eq_some`: the words that are taken for a command.
* `line_grammar`: which lines are commands, and what is wrong with every other line.
-/

namespace HackVm

namespace Text

/-! ### Numerals -/

/-- A numeral and its number.  A digit more is ten times the number, and the digit. -/
inductive Numeral : List Char → Nat → Prop
  | digit {d : Nat} : d < 10 → Numeral [d.digitChar] d
  | append {text : List Char} {n d : Nat} :
      Numeral text n → d < 10 → Numeral (text ++ [d.digitChar]) (10 * n + d)

theorem exists_digitChar {c : Char} (h : c.isDigit = true) : ∃ d < 10, c = d.digitChar := by
  obtain ⟨hLow, hHigh⟩ := Char.isDigit_iff_toNat.mp h
  simp only [Char.reduceToNat] at hLow hHigh
  refine ⟨c.toNat - 48, by omega, Char.toNat_inj.mp ?_⟩
  rw [Nat.toNat_digitChar_of_lt_ten (by omega)]
  omega

theorem ofDigitChars_append_digitChar (text : List Char) {d : Nat} (h : d < 10) :
    Nat.ofDigitChars 10 (text ++ [d.digitChar]) 0 = 10 * Nat.ofDigitChars 10 text 0 + d := by
  rw [Nat.ofDigitChars_append, Nat.ofDigitChars_cons, Nat.toNat_digitChar_of_lt_ten h]
  simp

theorem numeral_ofDigitChars (text : List Char) (hFull : text ≠ [])
    (hDigits : ∀ c ∈ text, c.isDigit = true) : Numeral text (Nat.ofDigitChars 10 text 0) := by
  induction text using List.reverseRecOn with
  | nil => exact absurd rfl hFull
  | append_singleton text c ih =>
    obtain ⟨d, hd, rfl⟩ := exists_digitChar (hDigits c (by simp))
    rw [ofDigitChars_append_digitChar text hd]
    by_cases hText : text = []
    · subst hText
      simpa using Numeral.digit hd
    · exact (ih hText fun c hc => hDigits c (List.mem_append_left _ hc)).append hd

theorem Numeral.ne_nil {text : List Char} {n : Nat} (h : Numeral text n) : text ≠ [] := by
  cases h <;> simp

theorem Numeral.isDigit {text : List Char} {n : Nat} (h : Numeral text n) :
    ∀ c ∈ text, c.isDigit = true := by
  have hDigit : ∀ {d : Nat}, d < 10 → d.digitChar.isDigit = true := by
    intro d hd
    rw [Nat.isDigit_digitChar]
    exact decide_eq_true hd
  induction h with
  | digit hd => simpa using hDigit hd
  | append _ hd ih =>
    intro c hc
    rcases List.mem_append.mp hc with hc | hc
    · exact ih c hc
    · rw [List.mem_singleton.mp hc]
      exact hDigit hd

theorem Numeral.ofDigitChars {text : List Char} {n : Nat} (h : Numeral text n) :
    Nat.ofDigitChars 10 text 0 = n := by
  induction h with
  | digit hd => simpa using ofDigitChars_append_digitChar [] hd
  | append _ hd ih => rw [ofDigitChars_append_digitChar _ hd, ih]

/-- **A number is read** from its numerals, of any length, and from nothing else. -/
theorem decimal?_eq_some {text : List Char} {n : Nat} :
    decimal? text = some n ↔ Numeral text n := by
  rw [decimal?]
  constructor
  · intro h
    split at h
    · next hText =>
      cases h
      exact numeral_ofDigitChars text hText.1 (List.all_eq_true.mp hText.2)
    · cases h
  · intro h
    rw [if_pos ⟨h.ne_nil, List.all_eq_true.mpr h.isDigit⟩, h.ofDigitChars]

/-! ### Words and gaps -/

/-- One or more spaces and tabs. -/
structure Gap (gap : List Char) : Prop where
  ne_nil : gap ≠ []
  spaceOrTab : ∀ c ∈ gap, c = ' ' ∨ c = '\t'

/-- A line and the words that it has between its gaps. -/
inductive Joined : List (List Char) → List Char → Prop
  | one (word : List Char) : Joined [word] word
  | cons (word : List Char) {gap line : List Char} {words : List (List Char)} :
      Gap gap → Joined words line → Joined (word :: words) (word ++ (gap ++ line))

/-- A word is not empty and has no space or tab in it. -/
structure IsWord (word : List Char) : Prop where
  ne_nil : word ≠ []
  isGap_eq_false : ∀ c ∈ word, isGap c = false

theorem isGap_iff {c : Char} : isGap c = true ↔ c = ' ' ∨ c = '\t' := by
  simp [isGap]

theorem isWord_of_all {word : List Char} (h : word ≠ [] ∧ (word.all fun c => !isGap c) = true) :
    IsWord word :=
  ⟨h.1, fun c hc => by simpa using List.all_eq_true.mp h.2 c hc⟩

theorem isBlank_of_isGap {c : Char} (h : isGap c = true) : isBlank c = true := by
  rcases isGap_iff.mp h with rfl | rfl <;> decide

theorem Gap.cons {c : Char} {gap : List Char} (hc : isGap c = true)
    (h : ∀ d ∈ gap, d = ' ' ∨ d = '\t') : Gap (c :: gap) :=
  ⟨by simp, List.forall_mem_cons.mpr ⟨isGap_iff.mp hc, h⟩⟩

theorem Gap.single {c : Char} (hc : isGap c = true) : Gap [c] :=
  .cons hc fun _ hd => (List.not_mem_nil hd).elim

/-- A line that starts with a gap has an empty first field. -/
theorem fields_cons_of_isGap {c : Char} (hc : isGap c = true) (rest : List Char) :
    ∃ words, fields (c :: rest) = [] :: words := by
  induction rest generalizing c with
  | nil => exact ⟨[[]], by simp [fields, hc]⟩
  | cons d rest ih =>
    rw [fields, if_pos hc]
    by_cases hd : isGap d = true
    · rw [List.head?_cons, Option.any_some, if_pos hd]
      exact ih hd
    · rw [List.head?_cons, Option.any_some, if_neg hd]
      exact ⟨_, rfl⟩

/-- A gap at the start of a line may as well be longer. -/
theorem Joined.cons_gap {c d : Char} {rest : List Char} {words : List (List Char)}
    (hc : isGap c = true) (h : Joined ([] :: words) (d :: rest)) :
    Joined ([] :: words) (c :: d :: rest) := by
  generalize hFirst : [] :: words = all at h
  generalize hLine : d :: rest = line at h
  cases h with
  | one word =>
    cases hFirst
    cases hLine
  | cons word hGap hRest =>
    cases hFirst
    exact .cons [] (.cons hc hGap.spaceOrTab) hRest

/-- A line is its fields with gaps between them. -/
theorem joined_fields (line : List Char) : Joined (fields line) line := by
  induction line with
  | nil => exact .one []
  | cons c rest ih =>
    rw [fields]
    by_cases hc : isGap c = true
    · rw [if_pos hc]
      cases rest with
      | nil => exact .cons [] (.single hc) ih
      | cons d rest =>
        rw [List.head?_cons, Option.any_some]
        by_cases hd : isGap d = true
        · obtain ⟨words, hWords⟩ := fields_cons_of_isGap hd rest
          rw [if_pos hd, hWords]
          rw [hWords] at ih
          exact ih.cons_gap hc
        · rw [if_neg hd]
          exact .cons [] (.single hc) ih
    · rw [if_neg hc]
      generalize fields rest = words at ih
      cases ih with
      | one => exact .one (c :: rest)
      | cons word hGap hLine => exact .cons (c :: word) hGap hLine

theorem Joined.head_not_gap {words : List (List Char)} {line : List Char}
    (hWords : ∀ word ∈ words, IsWord word) (h : Joined words line) :
    line.head?.any isGap = false := by
  have hHead : ∀ {word rest : List Char}, IsWord word →
      (word ++ rest).head?.any isGap = false := by
    rintro (_ | ⟨c, word⟩) rest hWord
    · exact absurd rfl hWord.ne_nil
    · exact hWord.isGap_eq_false c List.mem_cons_self
  cases h with
  | one word =>
    have := @hHead line [] (hWords line List.mem_cons_self)
    rwa [List.append_nil] at this
  | cons word hGap hRest => exact hHead (hWords word List.mem_cons_self)

/-- The fields of a line are the words that it was made of. -/
theorem fields_of_joined {words : List (List Char)} {line : List Char} (h : Joined words line) :
    (∀ word ∈ words, IsWord word) → fields line = words := by
  induction h with
  | one word =>
    intro hWords
    exact fields_word (hWords word List.mem_cons_self).isGap_eq_false
  | cons word hGap hRest ih =>
    intro hWords
    obtain ⟨hWord, hOthers⟩ := List.forall_mem_cons.mp hWords
    rw [fields_word_gap hWord.isGap_eq_false (fun c hc => isGap_iff.mpr (hGap.spaceOrTab c hc))
      hGap.ne_nil (hRest.head_not_gap hOthers), ih hOthers]

/-! ### The first token -/

/-- The first token of a line: the first run of characters that are not blank, or the line if it is
blank all over. -/
inductive FirstToken : List Char → List Char → Prop
  | word {blanks word rest : List Char} :
      (∀ c ∈ blanks, isBlank c = true) → word ≠ [] → (∀ c ∈ word, isBlank c = false) →
        (∀ c ∈ rest.head?, isBlank c = true) → FirstToken (blanks ++ (word ++ rest)) word
  | blank {line : List Char} : (∀ c ∈ line, isBlank c = true) → FirstToken line line

/-- The line without the blanks in front of it is its first token and what stands behind it. -/
theorem firstToken_firstWord? (line : List Char) :
    FirstToken line ((firstWord? line).getD line) := by
  have hSplit : line = line.takeWhile isBlank ++ line.dropWhile isBlank :=
    List.takeWhile_append_dropWhile.symm
  have hBlanks : ∀ c ∈ line.takeWhile isBlank, isBlank c = true := fun _ => List.mem_takeWhile_imp
  cases hRest : line.dropWhile isBlank with
  | nil =>
    rw [firstWord?, hRest]
    exact .blank (List.dropWhile_eq_nil_iff.mp hRest)
  | cons c rest =>
    have hc : isBlank c = false := by
      have := List.head?_dropWhile_not isBlank line
      rwa [hRest] at this
    have hWord : firstWord? line = some ((c :: rest).takeWhile (!isBlank ·)) := by
      rw [firstWord?, hRest]
    have hTail : c :: rest =
        (c :: rest).takeWhile (!isBlank ·) ++ (c :: rest).dropWhile (!isBlank ·) :=
      List.takeWhile_append_dropWhile.symm
    rw [hWord, Option.getD_some]
    rw [hRest, hTail] at hSplit
    generalize hLine : line.takeWhile isBlank = blanks at hSplit hBlanks
    rw [hSplit]
    refine .word hBlanks ?_ (fun d hd => ?_) (fun d hd => ?_)
    · rw [List.takeWhile_cons_of_pos (by simp [hc])]
      exact List.cons_ne_nil _ _
    · simpa using List.mem_takeWhile_imp hd
    · have := List.head?_dropWhile_not (!isBlank ·) (c :: rest)
      rw [hd] at this
      simpa using this

theorem FirstToken.firstWord? {line token : List Char} (h : FirstToken line token) :
    (firstWord? line).getD line = token := by
  rw [Text.firstWord?]
  cases h with
  | @word blanks word rest hBlanks hFull hWord hRest =>
    obtain ⟨c, word, rfl⟩ := List.exists_cons_of_ne_nil hFull
    have hTake : (c :: word ++ rest).takeWhile (!isBlank ·) = c :: word := by
      rw [List.takeWhile_append_of_pos fun d hd => by simp [hWord d hd]]
      cases rest with
      | nil => simp
      | cons d rest => rw [List.takeWhile_cons_of_neg (by simp [hRest d rfl]), List.append_nil]
    rw [List.dropWhile_append_of_pos hBlanks, List.cons_append,
      List.dropWhile_cons_of_neg (by simp [hWord c List.mem_cons_self])]
    exact hTake
  | blank h =>
    rw [List.dropWhile_eq_nil_iff.mpr h]
    rfl

/-- A word at the start of a line is the first token. -/
theorem Joined.firstToken {word : List Char} {words : List (List Char)} {line : List Char}
    (h : Joined (word :: words) line) (hFull : word ≠ []) (hWord : ∀ c ∈ word, isBlank c = false) :
    FirstToken line word := by
  have hStart : ∀ {rest : List Char}, (∀ c ∈ rest.head?, isBlank c = true) →
      FirstToken (word ++ rest) word :=
    fun hRest => @FirstToken.word [] _ _ nofun hFull hWord hRest
  cases h with
  | one word =>
    have := @hStart [] nofun
    rwa [List.append_nil] at this
  | @cons _ gap line _ hGap hRest =>
    refine hStart fun c hc => ?_
    obtain ⟨d, gap, rfl⟩ := List.exists_cons_of_ne_nil hGap.ne_nil
    cases hc
    exact isBlank_of_isGap (isGap_iff.mpr (hGap.spaceOrTab _ List.mem_cons_self))

end Text

open Text

/-! ### Operands -/

/-- The digits, with which a name does not start. -/
def digits : List Char :=
  "0123456789".toList

/-- The characters of names. -/
def nameAlphabet : List Char :=
  "abcdefghijklmnopqrstuvwxyzABCDEFGHIJKLMNOPQRSTUVWXYZ_.$:".toList ++ digits

/-- A name is a word over its alphabet that does not start with a digit. -/
structure IsName (name : String) : Prop where
  ne_nil : name.toList ≠ []
  head_not_digit : ∀ c ∈ name.toList.head?, c ∉ digits
  mem_alphabet : ∀ c ∈ name.toList, c ∈ nameAlphabet

/-- A word that is the numeral of a number, which is not too large for an instruction. -/
structure IsNumber (word : List Char) (number : Word) : Prop where
  numeral : Numeral word number.toNat
  le_max : number.toNat ≤ 32767

/-- The words that the operands of a command may be. -/
inductive Command.Takes : Command → List (List Char) → Prop
  | push {segment : Segment} {index : Word} {word : List Char} :
      IsNumber word index → Takes (.push segment index) [segment.text.toList, word]
  | pop {segment : Segment} {index : Word} {word : List Char} :
      IsNumber word index → Takes (.pop segment index) [segment.text.toList, word]
  | unary (op : UnaryOp) : Takes (.unary op) []
  | binary (op : BinaryOp) : Takes (.binary op) []
  | compare (op : Comparison) : Takes (.compare op) []
  | label {name : String} : IsName name → Takes (.label name) [name.toList]
  | goto {name : String} : IsName name → Takes (.goto name) [name.toList]
  | ifGoto {name : String} : IsName name → Takes (.ifGoto name) [name.toList]
  | function {name : String} {locals : Word} {word : List Char} :
      IsName name → IsNumber word locals → Takes (.function name locals) [name.toList, word]
  | call {name : String} {arguments : Word} {word : List Char} :
      IsName name → IsNumber word arguments → Takes (.call name arguments) [name.toList, word]
  | ret : Takes .ret []

/-- A line spells a command if it is the keyword and the operands, with gaps between them and
nothing before or behind. -/
def Spells (line : List Char) (command : Command) : Prop :=
  ∃ operands, command.Takes operands ∧ Joined (command.keyword.text.toList :: operands) line

/-! ### What is read from an operand -/

theorem isDigit_iff {c : Char} : c.isDigit = true ↔ c ∈ digits := by
  constructor
  · intro h
    obtain ⟨d, hd, rfl⟩ := exists_digitChar h
    have : ∀ d < 10, d.digitChar ∈ digits := by decide
    exact this d hd
  · have : digits.all Char.isDigit = true := by decide
    exact List.all_eq_true.mp this c

theorem toNat_lt_of_isAlphanum {c : Char} (h : c.isAlphanum = true) : c.toNat < 128 := by
  have hUpper : c.isUpper = true → c.val ≤ 'Z'.val := fun h => (of_decide_eq_true h).2
  have hLower : c.isLower = true → c.val ≤ 'z'.val := fun h =>
    of_decide_eq_true (Bool.and_eq_true_iff.mp h).2
  rcases Bool.or_eq_true_iff.mp h with hAlpha | hDigit
  · rcases Bool.or_eq_true_iff.mp hAlpha with h | h
    · exact Nat.lt_of_le_of_lt (UInt32.le_iff_toNat_le.mp (hUpper h)) (by decide)
    · exact Nat.lt_of_le_of_lt (UInt32.le_iff_toNat_le.mp (hLower h)) (by decide)
  · exact Nat.lt_of_le_of_lt (Char.isDigit_iff_toNat.mp hDigit).2 (by decide)

theorem isNameChar_iff {c : Char} : isNameChar c = true ↔ c ∈ nameAlphabet := by
  constructor
  · intro h
    have hAscii : c.toNat < 128 := by
      simp only [isNameChar, Bool.or_eq_true, beq_iff_eq] at h
      rcases h with (((h | rfl) | rfl) | rfl) | rfl
      · exact toNat_lt_of_isAlphanum h
      all_goals decide
    have hAll : ∀ n < 128, isNameChar (Char.ofNat n) = true → Char.ofNat n ∈ nameAlphabet := by
      decide +kernel
    have := hAll c.toNat hAscii
    rw [Char.ofNat_toNat] at this
    exact this h
  · have : nameAlphabet.all isNameChar = true := by decide
    exact List.all_eq_true.mp this c

theorem isName_iff {name : String} : isName name.toList = true ↔ IsName name := by
  cases hName : name.toList with
  | nil =>
    rw [isName]
    constructor
    · nofun
    · intro h
      exact absurd hName h.ne_nil
  | cons c rest =>
    rw [isName, Bool.and_eq_true, Bool.not_eq_true', List.all_eq_true]
    constructor
    · rintro ⟨hHead, hAll⟩
      refine ⟨by simp [hName], ?_, ?_⟩
      · rw [hName]
        rintro d ⟨⟩
        rw [← isDigit_iff, hHead]
        exact Bool.false_ne_true
      · rw [hName]
        exact fun d hd => isNameChar_iff.mp (hAll d hd)
    · rintro ⟨-, hHead, hAll⟩
      rw [hName] at hHead hAll
      refine ⟨?_, fun d hd => isNameChar_iff.mpr (hAll d hd)⟩
      rw [← Bool.not_eq_true, isDigit_iff]
      exact hHead c rfl

theorem readName?_eq_some {word : List Char} {name : String} :
    readName? word = some name ↔ word = name.toList ∧ IsName name := by
  rw [readName?]
  constructor
  · intro h
    split at h
    · next hName =>
      cases h
      rw [← isName_iff, String.toList_ofList]
      exact ⟨rfl, hName⟩
    · cases h
  · rintro ⟨rfl, hName⟩
    rw [if_pos (isName_iff.mpr hName), String.ofList_toList]

theorem readNumber?_eq_some {word : List Char} {number : Word} :
    readNumber? word = some number ↔ IsNumber word number := by
  refine Option.bind_eq_some_iff.trans ?_
  constructor
  · rintro ⟨n, hDecimal, h⟩
    split at h
    · next hMax =>
      cases h
      have hNat : (UInt16.ofNat n).toNat = n := by
        rw [UInt16.toNat_ofNat']
        unfold maxNumber at hMax
        omega
      exact ⟨hNat.symm ▸ decimal?_eq_some.mp hDecimal, hNat.symm ▸ hMax⟩
    · cases h
  · rintro ⟨hNumeral, hMax⟩
    refine ⟨number.toNat, decimal?_eq_some.mpr hNumeral, ?_⟩
    rw [if_pos (show number.toNat ≤ maxNumber from hMax), UInt16.ofNat_toNat]

/-- Looking a word up in a list of texts, each of which stands there once. -/
theorem find?_text_eq_some {α : Type} {text : α → String} {all : List α}
    (hAll : ∀ a, a ∈ all) (hText : ∀ a ∈ all, ∀ b ∈ all, text a = text b → a = b)
    {word : List Char} {a : α} :
    all.find? (fun b => (text b).toList == word) = some a ↔ word = (text a).toList := by
  constructor
  · intro h
    have hFound := List.find?_some h
    exact (eq_of_beq hFound).symm
  · rintro rfl
    cases hFind : all.find? (fun b => (text b).toList == (text a).toList) with
    | none =>
      have := List.find?_eq_none.mp hFind a (hAll a)
      simp at this
    | some b =>
      have hFound := List.find?_some hFind
      have hSame : text b = text a := String.toList_injective (eq_of_beq hFound)
      rw [hText b (hAll b) a (hAll a) hSame]

theorem Segment.read?_eq_some {word : List Char} {segment : Segment} :
    Segment.read? word = some segment ↔ word = segment.text.toList :=
  find?_text_eq_some Segment.mem_all (by decide)

theorem Keyword.read?_eq_some {word : List Char} {keyword : Keyword} :
    Keyword.read? word = some keyword ↔ word = keyword.text.toList :=
  find?_text_eq_some Keyword.mem_all (by decide)

/-! ### What is read from the words of a line -/

theorem one_read_eq_some {α β : Type} {read : Option α} {f : α → β} {b : β} :
    (do return f (← read)) = some b ↔ ∃ a, read = some a ∧ f a = b := by
  cases read <;> simp

theorem two_read_eq_some {α β γ : Type} {read : Option α} {other : Option β} {f : α → β → γ}
    {c : γ} :
    (do return f (← read) (← other)) = some c ↔
      ∃ a b, read = some a ∧ other = some b ∧ f a b = c := by
  cases read <;> cases other <;> simp

theorem Keyword.takes_of_command? {keyword : Keyword} {operands : List (List Char)}
    {command : Command} (h : keyword.command? operands = some command) :
    command.keyword = keyword ∧ command.Takes operands := by
  unfold command? at h
  split at h
  case h_1 segment index =>
    obtain ⟨_, _, hSegment, hIndex, rfl⟩ := two_read_eq_some.mp h
    rw [Segment.read?_eq_some.mp hSegment]
    exact ⟨rfl, .push (readNumber?_eq_some.mp hIndex)⟩
  case h_2 segment index =>
    obtain ⟨_, _, hSegment, hIndex, rfl⟩ := two_read_eq_some.mp h
    rw [Segment.read?_eq_some.mp hSegment]
    exact ⟨rfl, .pop (readNumber?_eq_some.mp hIndex)⟩
  case h_3 op => cases h; exact ⟨rfl, .unary op⟩
  case h_4 op => cases h; exact ⟨rfl, .binary op⟩
  case h_5 op => cases h; exact ⟨rfl, .compare op⟩
  case h_6 name =>
    obtain ⟨_, hName, rfl⟩ := one_read_eq_some.mp h
    obtain ⟨rfl, hSpelled⟩ := readName?_eq_some.mp hName
    exact ⟨rfl, .label hSpelled⟩
  case h_7 name =>
    obtain ⟨_, hName, rfl⟩ := one_read_eq_some.mp h
    obtain ⟨rfl, hSpelled⟩ := readName?_eq_some.mp hName
    exact ⟨rfl, .goto hSpelled⟩
  case h_8 name =>
    obtain ⟨_, hName, rfl⟩ := one_read_eq_some.mp h
    obtain ⟨rfl, hSpelled⟩ := readName?_eq_some.mp hName
    exact ⟨rfl, .ifGoto hSpelled⟩
  case h_9 name locals =>
    obtain ⟨_, _, hName, hLocals, rfl⟩ := two_read_eq_some.mp h
    obtain ⟨rfl, hSpelled⟩ := readName?_eq_some.mp hName
    exact ⟨rfl, .function hSpelled (readNumber?_eq_some.mp hLocals)⟩
  case h_10 name arguments =>
    obtain ⟨_, _, hName, hArguments, rfl⟩ := two_read_eq_some.mp h
    obtain ⟨rfl, hSpelled⟩ := readName?_eq_some.mp hName
    exact ⟨rfl, .call hSpelled (readNumber?_eq_some.mp hArguments)⟩
  case h_11 => cases h; exact ⟨rfl, .ret⟩
  case h_12 => cases h

theorem Keyword.command?_of_takes {command : Command} {operands : List (List Char)}
    (h : command.Takes operands) : command.keyword.command? operands = some command := by
  have hSegment : ∀ segment : Segment, Segment.read? segment.text.toList = some segment :=
    fun segment => Segment.read?_eq_some.mpr rfl
  have hName : ∀ {name : String}, IsName name → readName? name.toList = some name :=
    fun hName => readName?_eq_some.mpr ⟨rfl, hName⟩
  cases h with
  | push hIndex =>
    exact two_read_eq_some.mpr ⟨_, _, hSegment _, readNumber?_eq_some.mpr hIndex, rfl⟩
  | pop hIndex =>
    exact two_read_eq_some.mpr ⟨_, _, hSegment _, readNumber?_eq_some.mpr hIndex, rfl⟩
  | unary op => rfl
  | binary op => rfl
  | compare op => rfl
  | label h => exact one_read_eq_some.mpr ⟨_, hName h, rfl⟩
  | goto h => exact one_read_eq_some.mpr ⟨_, hName h, rfl⟩
  | ifGoto h => exact one_read_eq_some.mpr ⟨_, hName h, rfl⟩
  | function h hLocals =>
    exact two_read_eq_some.mpr ⟨_, _, hName h, readNumber?_eq_some.mpr hLocals, rfl⟩
  | call h hArguments =>
    exact two_read_eq_some.mpr ⟨_, _, hName h, readNumber?_eq_some.mpr hArguments, rfl⟩
  | ret => rfl

theorem Keyword.isWord_text (keyword : Keyword) : IsWord keyword.text.toList := by
  have : ∀ keyword ∈ Keyword.all,
      keyword.text.toList ≠ [] ∧ (keyword.text.toList.all fun c => !isGap c) = true := by decide
  exact isWord_of_all (this keyword keyword.mem_all)

theorem Keyword.isBlank_text (keyword : Keyword) :
    ∀ c ∈ keyword.text.toList, isBlank c = false := by
  have : ∀ keyword ∈ Keyword.all, (keyword.text.toList.all fun c => !isBlank c) = true := by decide
  simpa using this keyword keyword.mem_all

theorem Command.Takes.isWord {command : Command} {operands : List (List Char)}
    (h : command.Takes operands) : ∀ word ∈ operands, IsWord word := by
  have hSegment : ∀ segment : Segment, IsWord segment.text.toList := by
    intro segment
    have : ∀ segment ∈ Segment.all,
        segment.text.toList ≠ [] ∧ (segment.text.toList.all fun c => !isGap c) = true := by decide
    exact isWord_of_all (this segment segment.mem_all)
  have hName : ∀ {name : String}, IsName name → IsWord name.toList := by
    intro name h
    have : (nameAlphabet.all fun c => !isGap c) = true := by decide
    exact ⟨h.ne_nil, fun c hc => by simpa using List.all_eq_true.mp this c (h.mem_alphabet c hc)⟩
  have hNumber : ∀ {word : List Char} {number : Word}, IsNumber word number → IsWord word := by
    intro word number h
    have : (digits.all fun c => !isGap c) = true := by decide
    refine ⟨h.numeral.ne_nil, fun c hc => ?_⟩
    simpa using List.all_eq_true.mp this c (isDigit_iff.mp (h.numeral.isDigit c hc))
  cases h with
  | push h | pop h => simpa using ⟨hSegment _, hNumber h⟩
  | label h | goto h | ifGoto h => simpa using hName h
  | function h hOther | call h hOther => simpa using ⟨hName h, hNumber hOther⟩
  | unary _ | binary _ | compare _ | ret => nofun

/-- **The words that are taken for a command** are its keyword and its operands. -/
theorem Command.ofFields?_eq_some {words : List (List Char)} {command : Command} :
    ofFields? words = some command ↔
      ∃ operands, words = command.keyword.text.toList :: operands ∧ command.Takes operands := by
  cases words with
  | nil => simp [ofFields?]
  | cons word operands =>
    refine Option.bind_eq_some_iff.trans ?_
    constructor
    · rintro ⟨keyword, hKeyword, hCommand⟩
      obtain ⟨rfl, hTakes⟩ := Keyword.takes_of_command? hCommand
      exact ⟨operands, by rw [Keyword.read?_eq_some.mp hKeyword], hTakes⟩
    · rintro ⟨_, hWords, hTakes⟩
      obtain ⟨rfl, rfl⟩ := List.cons.inj hWords
      exact ⟨_, Keyword.read?_eq_some.mpr rfl, Keyword.command?_of_takes hTakes⟩

/-! ### What is read from a line -/

theorem Command.ofFields?_fields {line : List Char} {command : Command} :
    ofFields? (fields line) = some command ↔ Spells line command := by
  rw [ofFields?_eq_some]
  constructor
  · rintro ⟨operands, hFields, hTakes⟩
    exact ⟨operands, hTakes, hFields ▸ joined_fields line⟩
  · rintro ⟨operands, hTakes, hJoined⟩
    exact ⟨operands, fields_of_joined hJoined
      (List.forall_mem_cons.mpr ⟨command.keyword.isWord_text, hTakes.isWord⟩), hTakes⟩

/-- The keyword of a command is the first token of every line that spells it. -/
theorem Spells.firstToken {line : List Char} {command : Command} (h : Spells line command) :
    FirstToken line command.keyword.text.toList := by
  obtain ⟨operands, -, hJoined⟩ := h
  exact hJoined.firstToken command.keyword.isWord_text.ne_nil command.keyword.isBlank_text

/-- The fault of a line that is no command and starts with a token. -/
def LineFault.Of (token : List Char) : LineFault → Prop
  | unrecognized => ∀ keyword : Keyword, keyword.text.toList ≠ token
  | malformed keyword => keyword.text.toList = token

theorem Command.read_eq_ok {line : List Char} {command : Command} :
    Command.read line = .ok command ↔ Spells line command := by
  rw [Command.read]
  constructor
  · intro h
    split at h
    · cases h
    · split at h
      · next hFields =>
        cases h
        exact ofFields?_fields.mp hFields
      · cases h
  · intro h
    rw [h.firstToken.firstWord?, Keyword.read?_eq_some.mpr rfl, ofFields?_fields.mpr h]

theorem Command.read_eq_error {line : List Char} {fault : LineFault} :
    Command.read line = .error fault ↔
      (¬ ∃ command, Spells line command) ∧ ∃ token, FirstToken line token ∧ fault.Of token := by
  constructor
  · intro h
    have hNone : ¬ ∃ command, Spells line command := by
      rintro ⟨command, hSpells⟩
      rw [read_eq_ok.mpr hSpells] at h
      cases h
    refine ⟨hNone, _, firstToken_firstWord? line, ?_⟩
    rw [Command.read] at h
    split at h
    · next hKeyword =>
      cases h
      intro keyword hText
      rw [Keyword.read?_eq_some.mpr hText.symm] at hKeyword
      cases hKeyword
    · next hKeyword =>
      split at h
      · cases h
      · cases h
        exact (Keyword.read?_eq_some.mp hKeyword).symm
  · rintro ⟨hNone, token, hToken, hFault⟩
    rw [Command.read, hToken.firstWord?]
    cases fault with
    | unrecognized =>
      cases hKeyword : Keyword.read? token with
      | none => rfl
      | some keyword => exact absurd (Keyword.read?_eq_some.mp hKeyword).symm (hFault keyword)
    | malformed keyword =>
      rw [Keyword.read?_eq_some.mpr hFault.symm]
      cases hFields : ofFields? (fields line) with
      | none => rfl
      | some command => exact absurd ⟨command, ofFields?_fields.mp hFields⟩ hNone

/-- **The grammar of a line.**  A line is read as a command exactly if it spells that command.
Every other line is an error, with the line as its text and at its position: the line is
unrecognized if its first token is no keyword, and malformed otherwise. -/
theorem line_grammar (position : Position) (line : List Char) :
    (∀ statement, readLine position line = .ok statement ↔
      statement.position = position ∧ Spells line statement.command) ∧
    ∀ error, readLine position line = .error error ↔
      (¬ ∃ command, Spells line command) ∧ ∃ token fault, FirstToken line token ∧ fault.Of token ∧
        error = .line position (String.ofList line) fault := by
  refine ⟨fun statement => ?_, fun error => ?_⟩
  · rw [← Command.read_eq_ok, readLine]
    obtain ⟨place, command⟩ := statement
    cases Command.read line with
    | ok found => simp [eq_comm]
    | error fault => simp
  · rw [readLine]
    cases hRead : Command.read line with
    | ok command =>
      have hSpells := Command.read_eq_ok.mp hRead
      simp only [reduceCtorEq, false_iff]
      rintro ⟨hNone, -⟩
      exact hNone ⟨command, hSpells⟩
    | error fault =>
      obtain ⟨hNone, token, hToken, hFault⟩ := Command.read_eq_error.mp hRead
      constructor
      · rintro ⟨⟩
        exact ⟨hNone, token, fault, hToken, hFault, rfl⟩
      · rintro ⟨-, other, found, hOther, hFound, rfl⟩
        have hSame := Command.read_eq_error.mpr ⟨hNone, other, hOther, hFound⟩
        rw [hRead] at hSame
        cases hSame
        rfl

/-- A blank that is neither a space nor a tab ends the first token, but it parts no operands. -/
example : readLine ⟨"Main.vm", 1⟩ "push\u00a0constant 7".toList =
    .error (.line ⟨"Main.vm", 1⟩ "push\u00a0constant 7" (.malformed .push)) := by
  decide

end HackVm
