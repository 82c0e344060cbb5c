import JarIndex.FileTree.Lookup
import Mathlib.Data.List.Basic

/-!
# Paths joined with names

A name is joined to a path behind a slash, of which there is one already where the
path ends in it. However the path is written, the parts of the joined path and the
names to walk for it are those of the path, and then the name.
-/

set_option autoImplicit false

namespace JarIndex.Path

structure IsName (s : String) : Prop where
  nonempty : s ≠ ""
  not_here : s ≠ "."
  not_up : s ≠ ".."
  no_slash : '/' ∉ s.toList
  no_nul : '\x00' ∉ s.toList
  short : s.utf8ByteSize ≤ FileTree.maxName

instance (s : String) : Decidable (IsName s) :=
  decidable_of_iff (s ≠ "" ∧ s ≠ "." ∧ s ≠ ".." ∧ '/' ∉ s.toList ∧ '\x00' ∉ s.toList ∧
      s.utf8ByteSize ≤ FileTree.maxName)
    ⟨fun ⟨h₁, h₂, h₃, h₄, h₅, h₆⟩ => ⟨h₁, h₂, h₃, h₄, h₅, h₆⟩,
      fun h => ⟨h.nonempty, h.not_here, h.not_up, h.no_slash, h.no_nul, h.short⟩⟩

def inward (segs : List String) : List Part := (segs.filter (!isIdle ·)).map Part.ofSegment

def lead (absolute : Bool) (s : String) : List Part :=
  if s = "" then if absolute then [.root] else []
  else if s = "." then [.here] else inward [s]

variable {dir name : String}

theorem inward_append (a b : List String) : inward (a ++ b) = inward a ++ inward b := by
  simp [inward]

theorem IsName.not_idle (h : IsName name) : isIdle name = false := by
  simp [isIdle, h.nonempty, h.not_here]

theorem IsName.ofSegment (h : IsName name) : Part.ofSegment name = .name name := by
  unfold Part.ofSegment
  split
  · exact absurd rfl h.not_up
  · rfl

theorem inward_name (h : IsName name) : inward [name] = [.name name] := by
  simp [inward, h.not_idle, h.ofSegment]

theorem parts_eq {path s : String} {rest : List String} (h : segments path = s :: rest) :
    parts path = lead (isAbsolute path) s ++ inward rest := by
  unfold parts lead
  rw [h]
  split
  · rename_i hs
    cases hs
    simp [inward]
  · rename_i hs
    cases hs
    simp [inward]
  · rename_i hn hd
    rw [if_neg (fun he => hn rest (by rw [he])), if_neg (fun he => hd rest (by rw [he])),
      ← inward_append]
    rfl

theorem toList_join (dir name : String) : ∃ front,
    (join dir name).toList = front ++ '/' :: name.toList ∧
    (dir.toList = front ∨ dir.toList = front ++ ['/']) := by
  unfold join
  split
  · rename_i h
    refine ⟨dir.toList.dropLast, ?_, .inr (List.dropLast_append_getLast? '/' h).symm⟩
    rw [String.toList_append]
    conv_lhs => rw [← List.dropLast_append_getLast? '/' h]
    simp
  · refine ⟨dir.toList, ?_, .inl rfl⟩
    simp [String.toList_append]

theorem segments_join (dir : String) (h : IsName name) : ∃ segs, segs ≠ [] ∧
    segments (join dir name) = segs ++ [name] ∧
      (segments dir = segs ∨ segments dir = segs ++ [""]) := by
  obtain ⟨front, hj, hd⟩ := toList_join dir name
  refine ⟨(front.splitOn '/').map String.ofList, ?_, ?_, ?_⟩
  · simp [List.splitOn_ne_nil]
  · unfold segments
    rw [hj, List.splitOn_append_cons_self, List.splitOn_eq_singleton h.no_slash]
    simp
  · unfold segments
    rcases hd with hd | hd
    · exact .inl (by rw [hd])
    · rw [hd, List.splitOn_append_cons_self]
      exact .inr (by simp)

theorem isAbsolute_join (name : String) (h : dir ≠ "") :
    isAbsolute (join dir name) = isAbsolute dir := by
  have hn : dir.toList ≠ [] := by simpa using h
  unfold isAbsolute join
  split <;> simp [String.toList_append, List.head?_append_of_ne_nil _ hn]

theorem parts_join (hd : dir ≠ "") (h : IsName name) :
    parts (join dir name) = parts dir ++ [.name name] := by
  obtain ⟨segs, hne, hj, hs⟩ := segments_join dir h
  obtain ⟨s, rest, rfl⟩ := List.exists_cons_of_ne_nil hne
  have hi : inward [""] = [] := rfl
  rw [List.cons_append] at hj hs
  rw [parts_eq hj, isAbsolute_join name hd]
  rcases hs with hs | hs
  · rw [parts_eq hs, inward_append, inward_name h, List.append_assoc]
  · rw [parts_eq hs, inward_append, inward_append, inward_name h, hi, List.append_nil,
      List.append_assoc]

theorem join_ne_empty (dir name : String) : join dir name ≠ "" := by
  obtain ⟨front, hj, -⟩ := toList_join dir name
  intro h
  rw [h] at hj
  simp at hj

theorem getLast?_join (dir : String) (h : IsName name) :
    (join dir name).toList.getLast? = name.toList.getLast? := by
  obtain ⟨front, hj, -⟩ := toList_join dir name
  have hn : name.toList ≠ [] := by simpa using h.nonempty
  rw [hj, List.append_cons, List.getLast?_append_of_ne_nil _ hn]

theorem mem_join {c : Char} (hc : c ≠ '/') :
    c ∈ (join dir name).toList ↔ c ∈ dir.toList ∨ c ∈ name.toList := by
  obtain ⟨front, hj, hd⟩ := toList_join dir name
  rw [hj]
  rcases hd with hd | hd <;> simp [hd, hc]

theorem size_le_join (dir name : String) : dir.utf8ByteSize ≤ (join dir name).utf8ByteSize := by
  unfold join
  split <;> simp only [String.utf8ByteSize_append] <;> omega

theorem extensionOfName_eq_some {ext : String} : extensionOfName name = some ext ↔
    '.' ∉ ext.toList ∧ ∃ stem, stem ≠ "" ∧ name = stem ++ "." ++ ext := by
  have hdrop : ∀ cs : List Char,
      cs.drop (cs.takeWhile (· ≠ '.')).length = cs.dropWhile (· ≠ '.') := by
    intro cs
    conv_lhs => arg 2; rw [← List.takeWhile_append_dropWhile (p := (· ≠ '.')) (l := cs)]
    exact List.drop_left
  unfold extensionOfName
  dsimp only
  rw [hdrop]
  constructor
  · intro h
    have hall := List.takeWhile_append_dropWhile (p := (· ≠ '.')) (l := name.toList.reverse)
    split at h
    · rename_i dot c before hd
      cases h
      rw [hd] at hall
      have hdot := List.head?_dropWhile_not (· ≠ '.') name.toList.reverse
      rw [hd] at hdot
      have he : dot = '.' := by simpa using hdot
      subst he
      refine ⟨?_, String.ofList (c :: before).reverse, by simp, ?_⟩
      · have hlast := List.all_takeWhile (p := (· ≠ '.')) (l := name.toList.reverse)
        rw [List.all_eq_true] at hlast
        intro hm
        exact absurd (hlast '.' (by simpa using hm)) (by decide)
      · apply String.toList_injective
        simpa using (congrArg List.reverse hall).symm
    · cases h
  · rintro ⟨hdot, stem, hs, rfl⟩
    obtain ⟨c, cs, hc⟩ := List.exists_cons_of_ne_nil (l := stem.toList.reverse) (by simpa using hs)
    have hr : (stem ++ "." ++ ext).toList.reverse = ext.toList.reverse ++ '.' :: c :: cs := by
      simp [String.toList_append, hc]
    have hlast : ∀ c ∈ ext.toList.reverse, decide (c ≠ '.') := by
      intro c hc
      rw [decide_eq_true_eq]
      rintro rfl
      exact hdot (by simpa using hc)
    rw [hr, List.takeWhile_append_of_pos hlast, List.dropWhile_append_of_pos hlast]
    simp

theorem extension_join (hd : dir ≠ "") (h : IsName name) :
    extension (join dir name) = extensionOfName name := by
  have hf : fileName (join dir name) = some name := by
    unfold fileName
    rw [parts_join hd h]
    simp
  unfold extension
  rw [hf]
  rfl

end JarIndex.Path
