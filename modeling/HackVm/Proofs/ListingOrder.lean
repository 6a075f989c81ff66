import Mathlib.Data.String.Basic
import HackVm.Folder.Found

/-!
# The order of a listing plays no part

A system may list the entries of a folder in any order.  The source files among them are sorted by
their names, and no two entries have one name, so they come in one order only, whatever the listing
was; and with them all that is read and translated.

* `bytes_lt_of_lt`: the order of names is that of their bytes in UTF-8.
* `splitExtension_append`, `isSourceName_iff`: a source file has a name that ends in the extension, with
  something before it.
* `sortedSources_eq_of_perm`: two listings of a folder have the same source files in the same order.
* `listing_order_plays_no_part`: all of this in one statement.
-/

namespace HackVm

/-! ### The order of bytes -/

/-- The bytes of a name, in UTF-8. -/
def nameBytes (name : String) : List UInt8 :=
  name.toUTF8.data.toList

theorem nameBytes_eq (name : String) :
    nameBytes name = name.toList.flatMap String.utf8EncodeChar := by
  have hName : name.toByteArray = name.toList.utf8Encode := by
    rw [← String.toByteArray_ofList, String.ofList_toList]
  rw [nameBytes, String.toUTF8_eq_toByteArray, hName]
  exact congrArg Array.toList List.data_toByteArray

theorem cons_ofNat_lt_iff {m n : Nat} (hm : m < 256) (hn : n < 256) (a b : List UInt8) :
    UInt8.ofNat m :: a < UInt8.ofNat n :: b ↔ m < n ∨ m = n ∧ a < b := by
  rw [List.cons_lt_cons_iff, UInt8.lt_iff_toNat_lt, ← UInt8.toNat_inj,
    UInt8.toNat_ofNat_of_lt' hm, UInt8.toNat_ofNat_of_lt' hn]

/-- A smaller character has smaller bytes, whatever follows it. -/
theorem utf8EncodeChar_append_lt {c d : Char} (h : c < d) (a b : List UInt8) :
    String.utf8EncodeChar c ++ a < String.utf8EncodeChar d ++ b := by
  have hLt : c.val.toNat < d.val.toNat := h
  have hBound : d.val.toNat < 0x110000 := by
    rcases d.valid with hLow | ⟨-, hHigh⟩
    · exact Nat.lt_trans hLow (by decide)
    · exact hHigh
  have hDigits : ∀ n : Nat, n / 4096 = n / 64 / 64 ∧ n / 262144 = n / 64 / 64 / 64 := by omega
  -- the first byte grows with the number of bytes, and bytes of one number are digits to base 64
  unfold String.utf8EncodeChar
  simp only [hDigits]
  split_ifs <;> simp only [List.cons_append, List.nil_append] <;>
    (repeat rw [cons_ofNat_lt_iff (by omega) (by omega)]) <;> omega

/-- **Names in order have bytes in order.** -/
theorem bytes_lt_of_lt {a b : String} (h : a < b) : nameBytes a < nameBytes b := by
  have hLists : ∀ {t s : List Char}, s < t →
      s.flatMap String.utf8EncodeChar < t.flatMap String.utf8EncodeChar := by
    intro t
    induction t with
    | nil => exact fun h => absurd h (List.not_lt_nil _)
    | cons d t ih =>
      intro s h
      cases s with
      | nil =>
        obtain ⟨byte, rest, hBytes⟩ := List.exists_cons_of_ne_nil (@String.utf8EncodeChar_ne_nil d)
        rw [List.flatMap_cons, hBytes]
        exact List.nil_lt_cons _ _
      | cons c s =>
        rcases List.cons_lt_cons_iff.mp h with hLt | ⟨rfl, hRest⟩
        · exact utf8EncodeChar_append_lt hLt _ _
        · exact List.append_left_lt (ih hRest)
  rw [nameBytes_eq, nameBytes_eq]
  exact hLists h

/-! ### The names of source files -/

/-- A name with the extension of source files and something before it. -/
def HasSourceName (name : String) : Prop :=
  ∃ stem, stem ≠ "" ∧ name = stem ++ "." ++ sourceExtension

theorem splitExtension_append {stem extension : String} (hStem : stem ≠ "")
    (hExtension : '.' ∉ extension.toList) :
    splitExtension (stem ++ "." ++ extension) = (stem, some extension) := by
  have hReversed : (stem ++ "." ++ extension).toList.reverse =
      extension.toList.reverse ++ '.' :: stem.toList.reverse := by simp
  have hBefore : ∀ c ∈ extension.toList.reverse, decide (c ≠ '.') = true := by
    intro c hc
    rw [decide_eq_true_eq]
    rintro rfl
    exact hExtension (List.mem_reverse.mp hc)
  have hDrop : (stem ++ "." ++ extension).toList.reverse.dropWhile (· ≠ '.') =
      '.' :: stem.toList.reverse := by
    rw [hReversed, List.dropWhile_append_of_pos hBefore]
    rfl
  have hTake : (stem ++ "." ++ extension).toList.reverse.takeWhile (· ≠ '.') =
      extension.toList.reverse := by
    rw [hReversed, List.takeWhile_append_of_pos hBefore]
    simp
  rw [splitExtension, hDrop, hTake]
  split
  · next hNil => cases hNil
  · next hOne =>
    have hNoStem := List.reverse_eq_nil_iff.mp (List.cons.inj hOne).2
    exact absurd (String.toList_inj.mp hNoStem) hStem
  · next hMore =>
    obtain ⟨-, rfl⟩ := List.cons.inj hMore
    simp

theorem isSourceName_iff {name : String} : isSourceName name = true ↔ HasSourceName name := by
  constructor
  · intro h
    have hParts := List.takeWhile_append_dropWhile (p := (· ≠ '.')) (l := name.toList.reverse)
    have hDot := List.head?_dropWhile_not (· ≠ '.') name.toList.reverse
    rw [isSourceName, splitExtension, beq_iff_eq] at h
    split at h
    · cases h
    · cases h
    · next c stem hMore hDrop =>
      rw [hDrop] at hParts hDot
      have hC : c = '.' := by simpa using hDot
      have hEnd : (name.toList.reverse.takeWhile (· ≠ '.')).reverse = sourceExtension.toList := by
        rw [← Option.some.inj h, String.toList_ofList]
      have hName : name.toList = stem.reverse ++ '.' :: sourceExtension.toList := by
        rw [← List.reverse_reverse name.toList, ← hParts, ← hEnd, hC]
        simp
      refine ⟨String.ofList stem.reverse, ?_, ?_⟩
      · intro hEmpty
        exact hMore (by simpa using congrArg String.toList hEmpty)
      · rw [← String.toList_inj, hName]
        simp
  · rintro ⟨stem, hStem, rfl⟩
    rw [isSourceName, splitExtension_append hStem (by decide), beq_self_eq_true]

/-! ### The source files of a folder -/

/-- An entry is a source file. -/
def Entry.IsSource (entry : Entry) : Prop :=
  entry.contents?.isSome = true ∧ HasSourceName entry.name

/-- The source files among the entries of a folder, in the order of their names. -/
def sortedSources (entries : List Entry) : List (String × Except FileFault ByteArray) :=
  (entries.filterMap Entry.sourceFile?).mergeSort fun a b => a.1 ≤ b.1

/-- The source files of a folder, each once, in ascending order of the bytes of their names. -/
structure AreSources (entries : List Entry) (files : List (String × Except FileFault ByteArray)) :
    Prop where
  mem_iff : ∀ name contents, (name, contents) ∈ files ↔
    ⟨name, some contents⟩ ∈ entries ∧ HasSourceName name
  ascending : files.Pairwise fun a b => nameBytes a.1 < nameBytes b.1

theorem sourceFile?_eq_some {entry : Entry} {name : String}
    {contents : Except FileFault ByteArray} :
    entry.sourceFile? = some (name, contents) ↔
      entry = ⟨name, some contents⟩ ∧ HasSourceName name := by
  obtain ⟨other, contents?⟩ := entry
  rw [Entry.sourceFile?, ← isSourceName_iff]
  split
  · next hName =>
    rw [Option.map_eq_some_iff]
    constructor
    · rintro ⟨found, rfl, hFound⟩
      cases hFound
      exact ⟨rfl, hName⟩
    · rintro ⟨hEntry, -⟩
      cases hEntry
      exact ⟨contents, rfl, rfl⟩
  · next hName =>
    refine iff_of_false nofun ?_
    rintro ⟨hEntry, hOther⟩
    cases hEntry
    exact hName hOther

theorem mem_sortedSources {entries : List Entry} {name : String}
    {contents : Except FileFault ByteArray} :
    (name, contents) ∈ sortedSources entries ↔
      ⟨name, some contents⟩ ∈ entries ∧ HasSourceName name := by
  rw [sortedSources, List.mem_mergeSort, List.mem_filterMap]
  simp only [sourceFile?_eq_some]
  constructor
  · rintro ⟨entry, hMem, rfl, hName⟩
    exact ⟨hMem, hName⟩
  · rintro ⟨hMem, hName⟩
    exact ⟨_, hMem, rfl, hName⟩

theorem pairwise_sortedSources {entries : List Entry} (hNames : (entries.map (·.name)).Nodup) :
    (sortedSources entries).Pairwise fun a b => a.1 < b.1 := by
  have hSorted : (sortedSources entries).Pairwise fun a b => decide (a.1 ≤ b.1) = true := by
    apply List.pairwise_mergeSort
    · simp only [decide_eq_true_eq]
      exact fun _ _ _ => String.le_trans
    · simp only [Bool.or_eq_true, decide_eq_true_eq]
      exact fun _ _ => String.le_total _ _
  have hApart : (sortedSources entries).Pairwise fun a b => a.1 ≠ b.1 := by
    rw [sortedSources, (List.mergeSort_perm _ _).pairwise_iff Ne.symm, List.pairwise_filterMap]
    refine (List.pairwise_map.mp hNames).imp ?_
    rintro ⟨name, _⟩ ⟨other, _⟩ hNe ⟨a, _⟩ ha ⟨b, _⟩ hb
    cases (sourceFile?_eq_some.mp ha).1
    cases (sourceFile?_eq_some.mp hb).1
    exact hNe
  refine hSorted.imp₂ ?_ hApart
  intro a b hLe hNe
  rw [← String.not_le]
  exact fun hGe => hNe (String.le_antisymm (of_decide_eq_true hLe) hGe)

/-- **Two listings of a folder** have the same source files in the same order. -/
theorem sortedSources_eq_of_perm {entries listing : List Entry}
    (hNames : (entries.map (·.name)).Nodup) (hListing : listing.Perm entries) :
    sortedSources listing = sortedSources entries := by
  have hListed : (listing.map (·.name)).Nodup := (hListing.map _).nodup_iff.mpr hNames
  refine List.Perm.eq_of_pairwise ?_ (pairwise_sortedSources hListed)
    (pairwise_sortedSources hNames) ?_
  · exact fun a b _ _ hLt hGt => absurd hGt (String.lt_asymm hLt)
  · have hSame := hListing.filterMap Entry.sourceFile?
    exact ((List.mergeSort_perm _ _).trans hSame).trans (List.mergeSort_perm _ _).symm

theorem sortedSources_eq_nil_iff {entries : List Entry} :
    sortedSources entries = [] ↔ ∀ entry ∈ entries, ¬ entry.IsSource := by
  rw [List.eq_nil_iff_forall_not_mem]
  constructor
  · rintro h ⟨name, contents?⟩ hEntry ⟨hFile, hName⟩
    obtain ⟨contents, rfl⟩ := Option.isSome_iff_exists.mp hFile
    exact h (name, contents) (mem_sortedSources.mpr ⟨hEntry, hName⟩)
  · rintro h ⟨name, contents⟩ hMem
    obtain ⟨hEntry, hName⟩ := mem_sortedSources.mp hMem
    exact h _ hEntry ⟨rfl, hName⟩

theorem sourceFiles_folder (path : String) (entries : List Entry) :
    sourceFiles path (.ok (.folder entries)) =
      if sortedSources entries = [] then .error (.noSources path)
      else .ok ((sortedSources entries).map fun file => ⟨pathJoin path file.1, file.2⟩) := by
  rw [sourceFiles, ← sortedSources]
  cases sortedSources entries <;> rfl

/-- **The order of a listing plays no part.**  Of a folder whose entries have names of their own, the
source files are the files with the extension of source files and something before it, each once, in
ascending order of the bytes of their names; without such a file there is an error.  That is so in
whatever order the entries are listed, and what is read and translated, the errors included, is the
same for every listing too. -/
theorem listing_order_plays_no_part {entries : List Entry}
    (hNames : (entries.map (·.name)).Nodup) (path : String) :
    ∃ files, AreSources entries files ∧ ∀ listing, listing.Perm entries →
      (sourceFiles path (.ok (.folder listing)) = .error (.noSources path) ↔
        ∀ entry ∈ entries, ¬ entry.IsSource) ∧
      ((∃ entry ∈ entries, entry.IsSource) → sourceFiles path (.ok (.folder listing)) =
        .ok (files.map fun file => ⟨pathJoin path file.1, file.2⟩)) ∧
      loadSources path (.ok (.folder listing)) = loadSources path (.ok (.folder entries)) ∧
      ∀ options, translateFound options path (.ok (.folder listing)) =
        translateFound options path (.ok (.folder entries)) := by
  refine ⟨sortedSources entries, ⟨fun _ _ => mem_sortedSources, ?_⟩, ?_⟩
  · exact (pairwise_sortedSources hNames).imp bytes_lt_of_lt
  · intro listing hListing
    have hListed : sourceFiles path (.ok (.folder listing)) =
        sourceFiles path (.ok (.folder entries)) := by
      rw [sourceFiles_folder, sourceFiles_folder, sortedSources_eq_of_perm hNames hListing]
    simp only [loadSources, translateFound, hListed, sourceFiles_folder]
    refine ⟨?_, ?_, trivial, fun _ => trivial⟩
    · rw [← sortedSources_eq_nil_iff]
      split
      · next hNone => exact iff_of_true rfl hNone
      · next hSome => exact iff_of_false nofun hSome
    · rintro ⟨entry, hEntry, hSource⟩
      refine if_neg fun hNone => ?_
      exact sortedSources_eq_nil_iff.mp hNone entry hEntry hSource

/-- A folder with two source files, a file that is only an extension, a file with another extension
and a folder that is named like a source file. -/
def mixedEntries : List Entry :=
  [⟨".vm", some (.ok "add".toUTF8)⟩, ⟨"Main.jack", some (.ok "class Main".toUTF8)⟩,
    ⟨"Main.vm", some (.ok "push constant 1".toUTF8)⟩, ⟨"Sys.vm", some (.error .notText)⟩,
    ⟨"nested.vm", none⟩]

/-- Of such a folder, listed backward, the two source files are found in the order of their names. -/
theorem listed_backward :
    (mixedEntries.map (·.name)).Nodup ∧ (∃ entry ∈ mixedEntries, entry.IsSource) ∧
      sourceFiles "prog" (.ok (.folder mixedEntries.reverse)) =
        .ok [⟨"prog/Main.vm", .ok "push constant 1".toUTF8⟩, ⟨"prog/Sys.vm", .error .notText⟩] := by
  have hNames : (mixedEntries.map (·.name)).Nodup := by decide
  have hSource : ∃ entry ∈ mixedEntries, entry.IsSource :=
    ⟨⟨"Sys.vm", some (.error .notText)⟩, by simp [mixedEntries], rfl, "Sys", by decide, rfl⟩
  obtain ⟨files, -, hListings⟩ := listing_order_plays_no_part hNames "prog"
  have hForward := (hListings _ (.refl _)).2.1 hSource
  have hBackward := (hListings _ (List.reverse_perm _)).2.1 hSource
  refine ⟨hNames, hSource, ?_⟩
  rw [hBackward, ← hForward, sourceFiles_folder]
  have hSorted : sortedSources mixedEntries =
      [("Main.vm", .ok "push constant 1".toUTF8), ("Sys.vm", .error .notText)] :=
    List.mergeSort_of_pairwise (by decide)
  rw [hSorted]
  rfl

end HackVm
