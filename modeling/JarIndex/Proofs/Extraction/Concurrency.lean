import JarIndex.Proofs.Extraction.Folding
import JarIndex.Proofs.Scan.Written
import JarIndex.Proofs.Schedule.Pool

/-!
# Extractions side by side

The scans of the paths that are not blank are the tasks of a pool. What is made of
the scans that the pool leaves is what the loop over the paths makes, however the
tasks are interleaved.
-/

set_option autoImplicit false

namespace JarIndex.Extraction

open Schedule (Pool)

def tasks (tree : FileTree) (order : EntryOrder) (paths : List String) : List (Run Scan) :=
  (requested paths).map (Scan.run tree order)

def collect (paths : List String) (r : Option (List Scan)) : Option Extraction :=
  r.bind fun scans => (conclude (scans.foldl Tally.add (start paths))).value?

/-- That some interleaving of the scans ends with this value. -/
def SideBySide (tree : FileTree) (order : EntryOrder) (paths : List String)
    (e : Option Extraction) : Prop :=
  ∃ p r, Pool.Reaches (tasks tree order paths) (Pool.start (tasks tree order paths)) p ∧
    Pool.Gives p r ∧ e = collect paths r

theorem mapM_tasks (tree : FileTree) (order : EntryOrder) (paths : List String) :
    (tasks tree order paths).mapM Run.value? = scans tree order paths := by
  unfold tasks
  rw [List.mapM_map]
  rfl

theorem collect_eq (paths : List String) (r : Option (List Scan)) :
    collect paths r = r.map (ofScans paths) := by
  cases r with
  | none => rfl
  | some ss => exact value?_conclude paths ss

theorem sideBySide_iff (tree : FileTree) (order : EntryOrder) (paths : List String)
    (e : Option Extraction) : SideBySide tree order paths e ↔
      e = (run tree ⟨order, false⟩ paths).value? := by
  rw [value?_run, ← collect_eq, ← mapM_tasks]
  constructor
  · rintro ⟨p, r, hp, hg, rfl⟩
    rw [Pool.gives_iff.mp ⟨p, hp, hg⟩]
  · rintro rfl
    obtain ⟨p, hp, hg⟩ := Pool.gives_iff.mpr (Eq.refl ((tasks tree order paths).mapM Run.value?))
    exact ⟨p, _, hp, hg, rfl⟩

/-- Scans side by side lead to the value of the sequential run, in whatever order they are
completed. Every interleaving of them comes to an end, and ends with that value. -/
theorem every_schedule_sequential (tree : FileTree) (order : EntryOrder) (paths : List String) :
    (run tree ⟨order, true⟩ paths).value? = (run tree ⟨order, false⟩ paths).value? ∧
    (∀ completion : List Nat, completion.Perm (List.range (requested paths).length) →
      (concurrent tree order completion (start paths) (requested paths) >>= conclude).value? =
        (run tree ⟨order, false⟩ paths).value?) ∧
    WellFounded (fun q p => Pool.Step (tasks tree order paths) p q) ∧
    (∀ p, (∃ q, Pool.Step (tasks tree order paths) p q) ∨ ∃ r, Pool.Gives p r) ∧
    ∀ e, SideBySide tree order paths e ↔ e = (run tree ⟨order, false⟩ paths).value? := by
  refine ⟨?_, ?_, Pool.wellFounded_step _, Pool.step_or_gives _, sideBySide_iff tree order paths⟩
  · rw [value?_run, value?_run]
  · intro completion hc
    rw [value?_run]
    apply value?_bind_conclude
    apply value?_concurrent
    intro i hi
    exact hc.mem_iff.mpr (List.mem_range.mpr hi)

/-- The sample archive, one with the same source file in another package and a file that is no
archive. -/
def twoPackages : FileTree :=
  (Scan.writtenTree.put ["q.jar"] (.file (Archive.written Archive.Locator.mark
    [Scan.classEntry "C.class" "q/C" "B.java" (by decide)]))).put ["c.jar"] (.file [1, 2, 3])

def mixedPaths : List String := ["/q.jar", " ", "/c.jar", "/b.jar", "/none.jar", "/q.jar"]

theorem every_schedule_sequential_sample :
    (concurrent twoPackages .native [3, 1, 4, 0, 2] (start mixedPaths) (requested mixedPaths) >>=
      conclude).value? = some ⟨[⟨"B.java", ["p.B", "q.C"], "q"⟩],
        [.notAnArchive "/c.jar" .tooShort, .undecoded "/b.jar" "A.class" (.unexpectedEnd 6)],
        ⟨6, 1, 1, 3, 1, 3, 3, 1⟩⟩ := by
  have hc : [3, 1, 4, 0, 2].Perm (List.range (requested mixedPaths).length) := by decide +kernel
  rw [(every_schedule_sequential twoPackages .native mixedPaths).2.1 _ hc]
  decide +kernel

end JarIndex.Extraction
