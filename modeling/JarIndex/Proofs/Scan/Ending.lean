import JarIndex.Proofs.Archive.Content
import JarIndex.Proofs.Scan.Outcome

/-!
# When a scan ends

A scan is aborted by a class entry that reading cannot go on after, and by nothing
else: whatever the bytes of the archive are, each of its other entries gives a
header or a diagnostic.
-/

set_option autoImplicit false

namespace JarIndex.Scan

open Archive (Member Fatal)

structure IsVisited (bs : Bytes) (m : Member) : Prop where
  located : ∃ start, m.dataOffset bs = .ok start
  named : classSuffix.toList <:+ m.name.toList

theorem visit_eq_abort {path : String} {bs : Bytes} {m : Member} :
    visit path bs m = .abort ↔ Fatal bs m := by
  rw [← Member.content_eq_abort]
  unfold visit
  cases m.content bs with
  | error u => cases u <;> simp
  | ok data =>
    dsimp only
    cases ClassFile.parse data <;> simp

variable {bs : Bytes} {ms : List Member} {m : Member}

theorem mem_visited {order : EntryOrder} :
    m ∈ (visited order bs ms).map Prod.fst ↔ m ∈ ms ∧ IsVisited bs m := by
  have hp : ∀ e, e ∈ visited order bs ms ↔ e ∈ classEntriesFrom bs 0 ms :=
    fun e => (inOrder_perm order _).mem_iff
  constructor
  · intro h
    obtain ⟨⟨m, i⟩, he, rfl⟩ := List.mem_map.mp h
    obtain ⟨hi, hs, hc⟩ := mem_classEntries.mp ((hp _).mp he)
    exact ⟨List.mem_of_getElem? hi, hs, List.isSuffixOf_iff_suffix.mp hc⟩
  · intro h
    obtain ⟨i, hi⟩ := List.getElem?_of_mem h.1
    have he : (m, i) ∈ classEntriesFrom bs 0 ms := by
      apply mem_classEntries.mpr
      exact ⟨hi, h.2.located, List.isSuffixOf_iff_suffix.mpr h.2.named⟩
    exact List.mem_map.mpr ⟨_, (hp _).mpr he, rfl⟩

theorem no_abort_iff (path : String) (order : EntryOrder) :
    (∀ e ∈ visited order bs ms, visit path bs e.1 ≠ .abort) ↔
      ∀ m ∈ ms, IsVisited bs m → ¬ Fatal bs m := by
  have hm : (∀ e ∈ visited order bs ms, visit path bs e.1 ≠ .abort) ↔
      ∀ m ∈ (visited order bs ms).map Prod.fst, visit path bs m ≠ .abort := by
    rw [List.forall_mem_map]
  rw [hm]
  simp only [mem_visited, ne_eq, visit_eq_abort, and_imp]

theorem ofMembers_ends_iff (path : String) (order : EntryOrder) :
    (ofMembers path order bs ms).value?.isSome = true ↔
      ∀ m ∈ ms, IsVisited bs m → ¬ Fatal bs m := by
  rw [value?_ofMembers, ← no_abort_iff path order]
  split
  · rename_i h
    simpa using h
  · rename_i h
    simpa using h

/-- A scan ends unless its path leads to an archive with a class entry that reading cannot go
on after. -/
theorem run_ends_iff (t : FileTree) (order : EntryOrder) (path : String) :
    (run t order path).value?.isSome = true ↔
      ∀ bs ms, Opens t path bs ms → ∀ m ∈ ms, IsVisited bs m → ¬ Fatal bs m := by
  by_cases ho : ∃ bs ms, Opens t path bs ms
  · obtain ⟨bs, ms, ho⟩ := ho
    rw [run_opens order ho, ofMembers_ends_iff]
    constructor
    · intro h bs' ms' ho'
      obtain ⟨rfl, rfl⟩ := ho.unique ho'
      exact h
    · intro h
      exact h bs ms ho
  · have hn : ∀ bs ms, ¬ Opens t path bs ms := by simpa using ho
    have hr : (run t order path).value?.isSome = true := by
      by_cases he : t.doesExist path = true
      · obtain ⟨d, -, -, hr⟩ := run_failed order he ho
        rw [hr]
        rfl
      · rw [run_missing order (by simpa using he)]
        rfl
    simp [hr, hn]

end JarIndex.Scan
