import Mathlib.Algebra.GroupWithZero.Nat
import Mathlib.Data.List.Flatten
import Mathlib.Data.List.TakeWhile

/-! # Reading a file line by line

A loop that reads with `getline` and leaves only after it has handled the line passes on every line, then
either the empty line behind the last separator or, where the file ends without one, the last line again.
-/
namespace Lines
set_option autoImplicit false

variable {α : Type*} [DecidableEq α] {β ε : Type*} (sep : α)

/-- What is left of a file, and whether its end has been met. -/
structure Stream (α : Type*) where
  rest : List α
  eof : Bool

/-- Whether a line was read, and the line. Once the end has been met nothing is read, and the line stays as
it was. -/
def getline (file : Stream α) (line : List α) : Bool × List α × Stream α :=
  if file.eof then (false, line, file)
  else match file.rest.dropWhile (· ≠ sep) with
    | _ :: rest => (true, file.rest.takeWhile (· ≠ sep), ⟨rest, false⟩)
    | [] => (file.rest ≠ [], file.rest, ⟨[], true⟩)

/-- `do … while(getline)`: a round takes a character or is one of the last two. -/
def eachLine (f : β → List α → Except ε β) : Nat → Stream α → List α → β → Except ε β
  | 0, _, _, b => .ok b
  | fuel + 1, file, line, b => do
    let (more, line, file) := getline sep file line
    let b ← f b line
    if more then eachLine f fuel file line b else return b

/-- The lines the loop passes on. -/
def passed (file : List α) : List (List α) :=
  file.splitOn sep ++ ((file.splitOn sep).getLast?.filter (· ≠ [])).toList

/-- The file of these lines, each of them ended. -/
def text (lines : List (List α)) : List α := lines.flatMap (· ++ [sep])

variable {sep}

theorem splitOn_of_not_mem {line : List α} (h : sep ∉ line) : line.splitOn sep = [line] := by
  rw [List.splitOn_eq_splitOnP]
  apply List.splitOnP_eq_singleton
  intro x hx
  simpa using fun hEq : x = sep => h (hEq ▸ hx)

theorem splitOn_line {line : List α} (h : sep ∉ line) (rest : List α) :
    (line ++ sep :: rest).splitOn sep = line :: rest.splitOn sep := by
  rw [List.splitOn_eq_splitOnP, List.splitOn_eq_splitOnP]
  apply List.splitOnP_append_cons_of_forall_mem
  · intro x hx
    simpa using fun hEq : x = sep => h (hEq ▸ hx)
  · exact beq_self_eq_true sep

theorem passed_line {line : List α} (h : sep ∉ line) (rest : List α) :
    passed sep (line ++ sep :: rest) = line :: passed sep rest := by
  have hLast : (line :: rest.splitOn sep).getLast? = (rest.splitOn sep).getLast? := by
    rw [List.getLast?_cons, List.getLast?_eq_some_getLast (List.splitOn_ne_nil _ rest), Option.getD_some]
  rw [passed, splitOn_line h, hLast, List.cons_append, passed]

theorem passed_of_not_mem {line : List α} (h : sep ∉ line) :
    passed sep line = if line = [] then [[]] else [line, line] := by
  rw [passed, splitOn_of_not_mem h]
  split
  · case isTrue hNil =>
    subst hNil
    rfl
  · case isFalse hLine => simp [hLine]

/-- The first line of a file and what follows it. -/
theorem line_cases (sep : α) (file : List α) :
    (sep ∉ file ∧ file.dropWhile (· ≠ sep) = []) ∨
      ∃ rest, file = file.takeWhile (· ≠ sep) ++ sep :: rest ∧ file.dropWhile (· ≠ sep) = sep :: rest := by
  cases hDrop : file.dropWhile (· ≠ sep) with
  | nil =>
    left
    refine ⟨fun hMem => ?_, rfl⟩
    have hAll := List.dropWhile_eq_nil_iff.mp hDrop sep hMem
    simp at hAll
  | cons c rest =>
    right
    have hHead := List.head?_dropWhile_not (· ≠ sep) file
    simp only [hDrop, List.head?_cons] at hHead
    obtain rfl : c = sep := by simpa using hHead
    refine ⟨rest, ?_, rfl⟩
    rw [← hDrop, List.takeWhile_append_dropWhile]

theorem eachLine_eq (f : β → List α → Except ε β) {fuel : Nat} {file : List α} (hFuel : file.length + 2 ≤ fuel)
    (line : List α) (b : β) : eachLine sep f fuel ⟨file, false⟩ line b = (passed sep file).foldlM f b := by
  induction fuel generalizing file line b with
  | zero => omega
  | succ fuel ih =>
    obtain ⟨hSep, hDrop⟩ | ⟨rest, hFile, hDrop⟩ := line_cases sep file
    · -- the last line, which is passed on again unless it is empty
      obtain ⟨fuel, rfl⟩ : ∃ n, fuel = n + 1 := ⟨fuel - 1, by omega⟩
      rw [passed_of_not_mem hSep]
      simp only [eachLine, getline, hDrop]
      obtain rfl | hNil := eq_or_ne file []
      · simp
      · simp [hNil]
    · have hNotMem : sep ∉ file.takeWhile (· ≠ sep) := by
        intro hMem
        have hNe := List.mem_takeWhile_imp hMem
        simp at hNe
      have hLength := congrArg List.length hFile
      rw [List.length_append, List.length_cons] at hLength
      have hPassed : passed sep file = _ := (congrArg (passed sep) hFile).trans (passed_line hNotMem rest)
      rw [hPassed, List.foldlM_cons]
      simp only [eachLine, getline, hDrop]
      refine congrArg _ (funext fun b' => ?_)
      exact ih (by omega) _ b'

theorem passed_append {lines : List (List α)} (hLines : ∀ line ∈ lines, sep ∉ line) (rest : List α) :
    passed sep (text sep lines ++ rest) = lines ++ passed sep rest := by
  induction lines with
  | nil => rfl
  | cons line lines ih =>
    obtain ⟨hLine, hLines⟩ := List.forall_mem_cons.mp hLines
    rw [text, List.flatMap_cons, List.append_assoc, List.append_assoc, List.singleton_append, passed_line hLine]
    exact congrArg _ (ih hLines)

theorem passed_text {lines : List (List α)} (hLines : ∀ line ∈ lines, sep ∉ line) :
    passed sep (text sep lines) = lines ++ [[]] := by
  have h := passed_append hLines []
  rwa [List.append_nil] at h

theorem text_splitOn (file : List α) : text sep (file.splitOn sep) = file ++ [sep] := by
  have hInter : [sep].intercalate (file.splitOn sep) = file := List.intercalate_splitOn sep
  have hNil := List.splitOn_ne_nil sep file
  generalize file.splitOn sep = lines at hInter hNil
  rw [← hInter]
  clear hInter
  induction lines with
  | nil => exact absurd rfl hNil
  | cons line lines ih =>
    cases lines with
    | nil => simp [text]
    | cons next lines =>
      have hRest := ih (List.cons_ne_nil _ _)
      rw [text, List.flatMap_cons, ← text, hRest, List.intercalate_cons_cons]
      simp

theorem length_passed_le (sep : α) (file : List α) : (text sep (passed sep file)).length ≤ 2 * (file.length + 1) := by
  have hText : text sep (passed sep file) = file ++ [sep] ++
      text sep ((file.splitOn sep).getLast?.filter (· ≠ [])).toList := by
    rw [← text_splitOn, passed, text, List.flatMap_append, ← text, ← text]
  have hLast : (text sep ((file.splitOn sep).getLast?.filter (· ≠ [])).toList).length ≤ file.length + 1 := by
    have hWhole : (text sep (file.splitOn sep)).length = file.length + 1 := by
      rw [text_splitOn, List.length_append, List.length_singleton]
    cases hGet : (file.splitOn sep).getLast?.filter (· ≠ []) with
    | none => exact Nat.zero_le _
    | some line =>
      have hMem := List.mem_of_getLast? (Option.filter_eq_some_iff.mp hGet).1
      rw [← hWhole, Option.toList_some]
      exact (List.Sublist.flatMap (List.singleton_sublist.mpr hMem) _).length_le
  rw [hText, List.length_append, List.length_append, List.length_singleton]
  omega

omit [DecidableEq α] in
/-- Groups of shortened lines are no longer than the lines, counting one for each group. -/
theorem length_groups_le (sep : α) (p q : List α → Bool) {g : List α → List α}
    (hg : ∀ line, (g line).length ≤ line.length) (lines : List (List α)) :
    ((lines.splitOnP p).map fun group => (text sep ((group.filter q).map g)).length + 1).sum ≤
      (text sep lines).length + 1 := by
  induction lines with
  | nil => exact Nat.le_refl _
  | cons line lines ih =>
    have hText : (text sep (line :: lines)).length = line.length + 1 + (text sep lines).length := by
      rw [text, List.flatMap_cons, ← text, List.length_append, List.length_append, List.length_singleton]
    rw [List.splitOnP_cons_eq_if_modifyHead, hText]
    split
    · rw [List.map_cons, List.sum_cons]
      change 0 + 1 + _ ≤ _
      omega
    · obtain ⟨first, rest, hSplit⟩ := List.exists_cons_of_ne_nil (List.splitOnP_ne_nil p lines)
      rw [hSplit, List.map_cons, List.sum_cons] at ih
      rw [hSplit, List.modifyHead_cons, List.map_cons, List.sum_cons, List.filter_cons]
      have hLine := hg line
      split
      · rw [List.map_cons, text, List.flatMap_cons, ← text, List.length_append, List.length_append,
          List.length_singleton]
        omega
      · omega

/-- The last line is not ended. -/
theorem passed_dropLast {lines : List (List α)} {last : List α} (hLines : ∀ line ∈ lines ++ [last], sep ∉ line)
    (hLast : last ≠ []) : passed sep (text sep (lines ++ [last])).dropLast = lines ++ [last, last] := by
  obtain ⟨hLines, hSep⟩ := List.forall_mem_append.mp hLines
  have hText : (text sep (lines ++ [last])).dropLast = text sep lines ++ last := by
    rw [text, List.flatMap_append, List.flatMap_singleton, ← List.append_assoc, List.dropLast_concat]
    rfl
  rw [hText, passed_append hLines, passed_of_not_mem (hSep last (List.mem_singleton_self last)), if_neg hLast]

end Lines
