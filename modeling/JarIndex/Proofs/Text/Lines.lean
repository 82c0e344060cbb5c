import JarIndex.Text.Lines
import Mathlib.Data.List.Basic

/-!
# Reading lines as they were written

A text is read as the lines that it was written from, whichever of the two endings each
of them has, and every text is written from some.
-/

set_option autoImplicit false

namespace JarIndex.Text

section Symbols
variable {α : Type} [DecidableEq α] {newline carriage : α} {line : List α}

theorem linesFrom_plain (h : newline ∉ line) (start rest : List α) :
    linesFrom newline carriage start (line ++ rest) =
      linesFrom newline carriage (line.reverse ++ start) rest := by
  induction line generalizing start with
  | nil => rfl
  | cons a line ih =>
    have ha : a ≠ newline := fun he => h (he ▸ List.mem_cons_self)
    have hl : newline ∉ line := fun hm => h (List.mem_cons_of_mem _ hm)
    rw [List.cons_append, linesFrom, if_neg ha, ih hl, List.reverse_cons, List.append_assoc]
    rfl

theorem linesFrom_line (h : newline ∉ line) (rest : List α) :
    linesFrom newline carriage [] (line ++ newline :: rest) =
      dropLastIf carriage line :: linesFrom newline carriage [] rest := by
  rw [linesFrom_plain h, linesFrom, if_pos rfl, List.append_nil, List.reverse_reverse]

theorem linesFrom_last (h : newline ∉ line) (hn : line ≠ []) :
    linesFrom newline carriage [] line = [line] := by
  have hl : linesFrom newline carriage [] (line ++ []) = _ := linesFrom_plain h [] []
  rw [List.append_nil] at hl
  rw [hl, linesFrom, List.append_nil, if_neg (by simpa using hn), List.reverse_reverse]

end Symbols

/-- That a text is some lines, one after the other: each ends with a newline, bare or behind a
carriage return, and the last may go without, if it is not empty. -/
inductive Written : List String → String → Prop where
  | nil : Written [] ""
  | last {line : String} (plain : '\n' ∉ line.toList) (nonempty : line ≠ "") : Written [line] line
  | newline {line rest : String} {lines : List String} (plain : '\n' ∉ line.toList)
      (bare : line.toList.getLast? ≠ some '\r') (others : Written lines rest) :
      Written (line :: lines) (line ++ "\n" ++ rest)
  | carriage {line rest : String} {lines : List String} (plain : '\n' ∉ line.toList)
      (others : Written lines rest) : Written (line :: lines) (line ++ "\r\n" ++ rest)

theorem lines_line {line : String} (h : '\n' ∉ line.toList) (rest : String) :
    lines (line ++ "\n" ++ rest) =
      String.ofList (dropLastIf '\r' line.toList) :: lines rest := by
  have ht : (line ++ "\n" ++ rest).toList = line.toList ++ '\n' :: rest.toList := by simp
  rw [lines, ht, linesFrom_line h, List.map_cons]
  rfl

theorem append_ending (line rest : String) :
    line ++ "\r\n" ++ rest = line ++ "\r" ++ "\n" ++ rest := by
  rw [show "\r\n" = "\r" ++ "\n" from rfl, ← String.append_assoc]

theorem Written.lines_eq {ls : List String} {s : String} (h : Written ls s) : lines s = ls := by
  induction h with
  | nil => rfl
  | @last line plain nonempty =>
    have hn : line.toList ≠ [] := by simpa using nonempty
    rw [lines, linesFrom_last plain hn]
    simp
  | @newline line rest _ plain bare _ ih =>
    rw [lines_line plain, ih, dropLastIf, if_neg bare, String.ofList_toList]
  | @carriage line rest _ plain _ ih =>
    have hp : '\n' ∉ (line ++ "\r").toList := by simpa using plain
    rw [append_ending, lines_line hp, ih, dropLastIf, if_pos (by simp)]
    simp

theorem Written.exists_cons {line rest : String} {ls : List String} (plain : '\n' ∉ line.toList)
    (h : Written ls rest) : ∃ ls, Written ls (line ++ "\n" ++ rest) := by
  by_cases hc : line.toList.getLast? = some '\r'
  · obtain ⟨front, hf⟩ := List.getLast?_eq_some_iff.mp hc
    obtain rfl : line = String.ofList front ++ "\r" := String.toList_injective (by simp [hf])
    rw [← append_ending]
    exact ⟨_, .carriage (by simp_all) h⟩
  · exact ⟨_, .newline plain hc h⟩

theorem exists_written (s : String) : ∃ ls, Written ls s := by
  by_cases hm : '\n' ∈ s.toList
  · obtain ⟨line, rest, hs, hl⟩ := List.eq_append_cons_of_mem hm
    have he : s = String.ofList line ++ "\n" ++ String.ofList rest :=
      String.toList_injective (by simp [hs])
    have hlt : rest.length < s.length := by
      rw [← String.length_toList, hs, List.length_append, List.length_cons]
      omega
    obtain ⟨ls, hw⟩ := exists_written (String.ofList rest)
    rw [he]
    exact hw.exists_cons (by simpa using hl)
  · by_cases hn : s = ""
    · subst hn
      exact ⟨_, .nil⟩
    · exact ⟨_, .last hm hn⟩
termination_by s.length

/-- Reading lines is the one way to take a text apart into lines it is written from. -/
theorem lines_eq_iff {ls : List String} {s : String} : lines s = ls ↔ Written ls s := by
  constructor
  · rintro rfl
    obtain ⟨ls, h⟩ := exists_written s
    rwa [h.lines_eq]
  · exact Written.lines_eq

end JarIndex.Text
