import HackVm.Folder.Tree
import HackVm.Proofs.Lines

/-!
# Written files

A file that is written stands where its path leads, and nothing else in the tree changes.  The way
to the file leads through folders, and where a folder stands nothing is written (`Tree.write`), so
the way is the same in the new tree.

* `node?_put`: what stands where after something was put at a location.
* `walk_of_folders`: a way leads to the same location in a tree with more folders.
* `Tree.write_eq_ok`: what a path must be to be written at, and the new tree.
* `Tree.withFile_of_write`: the new tree holds the file at the path, and all else as before.
-/

namespace HackVm

open Text

/-! ### The last part of a path -/

/-- A text that does not end in a separator has a last piece that is not empty. -/
theorem exists_last_piece {separator : Char} {text : List Char} (hText : text ≠ [])
    (hLast : text.getLast? ≠ some separator) :
    ∃ front piece, split separator text = front ++ [piece] ∧ piece ≠ [] := by
  rcases split_cases separator text.reverse with hNone | ⟨piece, rest, hReverse, hPiece⟩
  · refine ⟨[], text, ?_, hText⟩
    exact split_of_not_mem fun hMem => hNone (List.mem_reverse.mpr hMem)
  · have hCut : text = rest.reverse ++ separator :: piece.reverse := by
      rw [← List.reverse_reverse text, hReverse]
      simp
    refine ⟨split separator rest.reverse, piece.reverse, ?_, ?_⟩
    · rw [hCut, split_append, split_of_not_mem fun hMem => hPiece (List.mem_reverse.mp hMem)]
    · intro hEmpty
      apply hLast
      rw [hCut, hEmpty]
      simp

theorem exists_last_part {path : String} (hPath : path ≠ "")
    (hLast : path.toList.getLast? ≠ some '/') :
    ∃ before name, pathParts path = before ++ [name] ∧ name ≠ "" := by
  have hText : path.toList ≠ [] := fun hEmpty => hPath (String.toList_inj.mp hEmpty)
  obtain ⟨front, piece, hSplit, hPiece⟩ := exists_last_piece hText hLast
  refine ⟨front.map String.ofList, String.ofList piece, ?_, ?_⟩
  · rw [pathParts, hSplit, List.map_append]
    rfl
  · intro hEmpty
    exact hPiece (by simpa using congrArg String.toList hEmpty)

/-! ### Steps that may fail -/

section Steps

variable {α β ε : Type}

theorem bind_eq_ok {x : Except ε α} {f : α → Except ε β} {b : β} :
    (x >>= f) = .ok b ↔ ∃ a, x = .ok a ∧ f a = .ok b := by
  cases x with
  | error fault =>
    refine iff_of_false nofun ?_
    rintro ⟨a, hOk, -⟩
    cases hOk
  | ok a =>
    constructor
    · exact fun h => ⟨a, rfl, h⟩
    · rintro ⟨other, hOk, h⟩
      cases hOk
      exact h

theorem bind_eq_error {x : Except ε α} {f : α → Except ε β} {fault : ε} :
    (x >>= f) = .error fault ↔ x = .error fault ∨ ∃ a, x = .ok a ∧ f a = .error fault := by
  cases x with
  | error other =>
    constructor
    · exact fun h => Or.inl (congrArg Except.error (Except.error.inj h))
    · rintro (h | ⟨a, hOk, -⟩)
      · exact congrArg Except.error (Except.error.inj h)
      · cases hOk
  | ok a =>
    constructor
    · exact fun h => Or.inr ⟨a, rfl, h⟩
    · rintro (h | ⟨other, hOk, h⟩)
      · cases h
      · cases hOk
        exact h

theorem check_bind_eq_ok {x : Except ε PUnit} {f : PUnit → Except ε β} {b : β} :
    (x >>= f) = .ok b ↔ x = .ok () ∧ f () = .ok b :=
  bind_eq_ok.trans ⟨fun ⟨_, h⟩ => h, fun h => ⟨(), h⟩⟩

/-- A step behind a test that must not hold. -/
theorem test_eq_ok {p : Prop} [Decidable p] {fault : ε} {b : β} {x : Except ε β} :
    (if p then (throw fault : Except ε PUnit) >>= fun _ => x else x) = .ok b ↔
      ¬ p ∧ x = .ok b := by
  by_cases hp : p
  · rw [if_pos hp]
    exact iff_of_false nofun fun h => h.1 hp
  · rw [if_neg hp]
    exact ⟨fun h => ⟨hp, h⟩, fun h => h.2⟩

end Steps

namespace Tree

variable {tree : Tree} {location other : Location} {node : Node}

/-! ### Putting something at a location -/

theorem lookup_map_put (nodes : List (Location × Node)) :
    (nodes.map fun (place, old) => (place, if place = location then node else old)).lookup other =
      (nodes.lookup other).map fun old => if other = location then node else old := by
  induction nodes with
  | nil => rfl
  | cons first nodes ih =>
    obtain ⟨place, old⟩ := first
    rw [List.map_cons, List.lookup_cons, List.lookup_cons, ih]
    cases hSame : other == place with
    | false => rfl
    | true =>
      obtain rfl := eq_of_beq hSame
      rfl

theorem lookup_put : (tree.put location node).nodes.lookup other =
    if other = location then some node else tree.nodes.lookup other := by
  rw [put]
  split
  · next hThere =>
    rw [lookup_map_put]
    obtain ⟨old, hOld⟩ := Option.isSome_iff_exists.mp hThere
    split
    · next hSame => rw [hSame, hOld]; rfl
    · simp
  · next hNew =>
    have hNone := Option.not_isSome_iff_eq_none.mp hNew
    rw [List.lookup_append]
    split
    · next hSame =>
      rw [hSame, hNone, List.lookup_cons_self]
      rfl
    · next hOther =>
      rw [List.lookup_cons, beq_false_of_ne hOther]
      exact Option.or_none

/-- What is put at a location stands there, and all else stands where it did.  The folders on the
way home are always there. -/
theorem node?_put (h : tree.node? location ≠ some .folder) :
    (tree.put location node).node? other =
      if other = location then some node else tree.node? other := by
  have hApart : location.isSuffixOf tree.home = false := by
    rw [Bool.eq_false_iff]
    intro hHome
    exact h (if_pos hHome)
  by_cases hSame : other = location
  · have hHome : ¬ location.isSuffixOf (tree.put location node).home = true := by
      rw [put, hApart]
      exact Bool.false_ne_true
    rw [if_pos hSame, hSame, node?, if_neg hHome, lookup_put, if_pos rfl]
  · rw [if_neg hSame, node?, lookup_put, if_neg hSame]
    rfl

/-! ### Following a path -/

theorem checkFolder_eq_ok : tree.checkFolder location = .ok () ↔
    tree.node? location = some .folder := by
  rw [checkFolder]
  split
  · next hFolder => exact iff_of_true rfl hFolder
  · next hFile =>
    refine iff_of_false nofun ?_
    rw [hFile]
    nofun
  · next hNone =>
    refine iff_of_false nofun ?_
    rw [hNone]
    nofun

theorem walk_cons_eq_ok {part : String} {rest : List String} {target : Location} :
    tree.walk location (part :: rest) = .ok target ↔ tree.node? location = some .folder ∧
      part.utf8ByteSize ≤ maxNameSize ∧ tree.walk (enter location part) rest = .ok target := by
  simp only [walk, check_bind_eq_ok, test_eq_ok, checkFolder_eq_ok, Nat.not_lt]

/-- A way leads to the same location where all the folders are, and perhaps more. -/
theorem walk_of_folders {written : Tree} {parts : List String} {target : Location}
    (hFolders : ∀ place, tree.node? place = some .folder → written.node? place = some .folder) :
    ∀ {location}, tree.walk location parts = .ok target →
      written.walk location parts = .ok target := by
  induction parts with
  | nil => exact fun h => h
  | cons part rest ih =>
    intro location h
    obtain ⟨hFolder, hSize, hRest⟩ := walk_cons_eq_ok.mp h
    exact walk_cons_eq_ok.mpr ⟨hFolders location hFolder, hSize, ih hRest⟩

theorem walk_concat_eq_ok {before : List String} {name : String} {target : Location} :
    ∀ {location}, tree.walk location (before ++ [name]) = .ok target ↔
      ∃ folder, tree.walk location before = .ok folder ∧ tree.node? folder = some .folder ∧
        name.utf8ByteSize ≤ maxNameSize ∧ enter folder name = target := by
  induction before with
  | nil =>
    intro location
    rw [List.nil_append, walk_cons_eq_ok]
    constructor
    · rintro ⟨hFolder, hSize, hEnd⟩
      exact ⟨location, rfl, hFolder, hSize, Except.ok.inj hEnd⟩
    · rintro ⟨folder, hHere, hFolder, hSize, rfl⟩
      cases hHere
      exact ⟨hFolder, hSize, rfl⟩
  | cons part before ih =>
    intro location
    rw [List.cons_append, walk_cons_eq_ok, ih]
    simp only [walk_cons_eq_ok]
    constructor
    · rintro ⟨hFolder, hSize, folder, hWay, hLast⟩
      exact ⟨folder, ⟨hFolder, hSize, hWay⟩, hLast⟩
    · rintro ⟨folder, ⟨hFolder, hSize, hWay⟩, hLast⟩
      exact ⟨hFolder, hSize, folder, hWay, hLast⟩

/-- A name that enters a folder. -/
def EntersFolder (name : String) : Prop :=
  name ≠ "" ∧ name ≠ "." ∧ name ≠ ".."

theorem enter_of_entersFolder {name : String} (h : EntersFolder name) :
    enter location name = name :: location := by
  obtain ⟨hFull, hStay, hLeave⟩ := h
  rw [enter]
  exacts [hFull, hStay, hLeave]

/-! ### Writing -/

theorem checkPath_eq_ok {path : String} : checkPath path = .ok () ↔
    '\x00' ∉ path.toList ∧ path ≠ "" ∧ path.utf8ByteSize ≤ maxPathSize := by
  have hEmpty : path.isEmpty = true ↔ path = "" := String.isEmpty_iff
  have hLast : (if path.utf8ByteSize > maxPathSize then (throw .nameTooLong : Except FileFault Unit)
      else pure ()) = .ok () ↔ path.utf8ByteSize ≤ maxPathSize := by
    rw [← Nat.not_lt]
    split
    · next hLong => exact iff_of_false nofun fun hShort => hShort hLong
    · next hShort => exact iff_of_true rfl hShort
  simp only [checkPath, test_eq_ok, hLast, hEmpty, String.contains_char_eq, decide_eq_true_iff]

/-- **What is written, and where.** -/
theorem write_eq_ok {path : String} {bytes : ByteArray} {written : Tree}
    (h : tree.write path bytes = .ok written) :
    checkPath path = .ok () ∧ ∃ before name folder, pathParts path = before ++ [name] ∧
      EntersFolder name ∧ name.utf8ByteSize ≤ maxNameSize ∧
      tree.walk (tree.start path) before = .ok folder ∧ tree.node? folder = some .folder ∧
      tree.node? (name :: folder) ≠ some .folder ∧
      written = tree.put (name :: folder) (.file (.ok bytes)) := by
  rw [write, check_bind_eq_ok] at h
  obtain ⟨hPath, h⟩ := h
  refine ⟨hPath, ?_⟩
  split at h
  · cases h
  · next name before hParts =>
    rw [bind_eq_ok] at h
    obtain ⟨folder, hWay, h⟩ := h
    simp only [check_bind_eq_ok, test_eq_ok, checkFolder_eq_ok, Nat.not_lt, not_or] at h
    obtain ⟨hFolder, ⟨hSlash, hStay, hLeave⟩, hSize, h⟩ := h
    obtain ⟨front, last, hPathParts, hLast⟩ :=
      exists_last_part (checkPath_eq_ok.mp hPath).2.1 hSlash
    have hReversed : (pathParts path).reverse.dropWhile (· = "") = last :: front.reverse := by
      rw [hPathParts, List.reverse_append]
      exact List.dropWhile_cons_of_neg (by simpa using hLast)
    obtain ⟨rfl, rfl⟩ := List.cons.inj (hParts.symm.trans hReversed)
    rw [List.reverse_reverse] at hWay
    refine ⟨front, name, folder, hPathParts, ⟨hLast, hStay, hLeave⟩, hSize, hWay, hFolder, ?_⟩
    split at h
    · cases h
    · next hFree => exact ⟨hFree, (Except.ok.inj h).symm⟩

/-- A tree is another tree with a file at a path, and all else as it was. -/
structure WithFile (tree : Tree) (path : String) (bytes : ByteArray) (written : Tree) : Prop where
  home_eq : written.home = tree.home
  find_eq : written.find path = .ok (.file (.ok bytes))
  /-- The path leads to one location, and elsewhere nothing changed. -/
  kept : ∃ location, written.walk (written.start path) (pathParts path) = .ok location ∧
    ∀ other, other ≠ location → written.node? other = tree.node? other

/-- **A file that is written** stands at its path, and nothing else changes. -/
theorem withFile_of_write {path : String} {bytes : ByteArray} {written : Tree}
    (h : tree.write path bytes = .ok written) : tree.WithFile path bytes written := by
  obtain ⟨hPath, before, name, folder, hParts, hEnters, hSize, hWay, hFolder, hFree, rfl⟩ :=
    write_eq_ok h
  have hNodes : ∀ other, (tree.put (name :: folder) (.file (.ok bytes))).node? other =
      if other = name :: folder then some (.file (.ok bytes)) else tree.node? other :=
    fun other => node?_put hFree
  have hFolders : ∀ place, tree.node? place = some .folder →
      (tree.put (name :: folder) (.file (.ok bytes))).node? place = some .folder := by
    intro place hPlace
    rw [hNodes, if_neg, hPlace]
    rintro rfl
    exact hFree hPlace
  have hArrives : (tree.put (name :: folder) (.file (.ok bytes))).walk (tree.start path)
      (pathParts path) = .ok (name :: folder) := by
    rw [hParts, walk_concat_eq_ok]
    exact ⟨folder, walk_of_folders hFolders hWay, hFolders folder hFolder, hSize,
      enter_of_entersFolder hEnters⟩
  have hFound : (tree.put (name :: folder) (.file (.ok bytes))).node? (name :: folder) =
      some (.file (.ok bytes)) := by
    rw [hNodes, if_pos rfl]
  refine ⟨rfl, ?_, name :: folder, hArrives, fun other hOther => ?_⟩
  · refine check_bind_eq_ok.mpr ⟨hPath, bind_eq_ok.mpr ⟨_, hArrives, ?_⟩⟩
    rw [hFound]
    rfl
  · rw [hNodes, if_neg hOther]

end Tree

end HackVm
