/-!
# Fields

The operands of a command stand apart by gaps, and a gap is a run of spaces and tabs.  `fields`
cuts a line at each of its gaps, however long they are.  A gap at the start or at the end of the
line leaves an empty field there, so a line whose fields are all non-empty has no such gap.

The reverse side is a line put together from words: `fields_word` reads a line of one word, and
`fields_word_gap` takes a word and the gap after it off the front of a line.
-/

namespace HackVm.Text

/-- Whether a character may stand in a gap between two fields. -/
def isGap (c : Char) : Bool :=
  c == ' ' || c == '\t'

/-- The parts of a line between its gaps. -/
def fields : List Char → List (List Char)
  | [] => [[]]
  | c :: rest =>
    if isGap c then
      if rest.head?.any isGap then fields rest else [] :: fields rest
    else
      (fields rest).modifyHead (c :: ·)

theorem fields_word {word : List Char} (h : ∀ c ∈ word, isGap c = false) :
    fields word = [word] := by
  induction word with
  | nil => rfl
  | cons c word ih =>
    have hc : isGap c = false := h c (by simp)
    simp [fields, hc, ih fun d hd => h d (by simp [hd])]

theorem fields_gap {gap rest : List Char} (hGap : ∀ c ∈ gap, isGap c = true) (hNonempty : gap ≠ [])
    (hRest : rest.head?.any isGap = false) : fields (gap ++ rest) = [] :: fields rest := by
  induction gap with
  | nil => exact absurd rfl hNonempty
  | cons c gap ih =>
    have hc : isGap c = true := hGap c (by simp)
    cases gap with
    | nil => simp [fields, hc, hRest]
    | cons d gap =>
      have hd : isGap d = true := hGap d (by simp)
      rw [List.cons_append, fields, if_pos hc, if_pos (by simp [hd]),
        ih (fun e he => hGap e (List.mem_cons_of_mem c he)) (by simp)]

theorem fields_word_gap {word gap rest : List Char} (hWord : ∀ c ∈ word, isGap c = false)
    (hGap : ∀ c ∈ gap, isGap c = true) (hNonempty : gap ≠ [])
    (hRest : rest.head?.any isGap = false) :
    fields (word ++ (gap ++ rest)) = word :: fields rest := by
  induction word with
  | nil => exact fields_gap hGap hNonempty hRest
  | cons c word ih =>
    have hc : isGap c = false := hWord c (by simp)
    simp [fields, hc, ih fun d hd => hWord d (by simp [hd])]

end HackVm.Text
