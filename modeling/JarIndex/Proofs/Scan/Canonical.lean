import JarIndex.Proofs.Scan.Presented
import Mathlib.Data.List.Nodup

/-!
# Canonical scans of archives with the same members

Sorting the class entries by names that are all different leaves nothing of the
order in which the directory lists them, so archives with the same members give
the same in canonical order.
-/

set_option autoImplicit false

namespace JarIndex

open Archive (Member)

/-- The diagnostic as it would be for an archive at another path. -/
def Diagnostic.moveTo (path : String) : Diagnostic → Diagnostic
  | .unopened _ cause => .unopened path cause
  | .notAnArchive _ cause => .notAnArchive path cause
  | .unreadEntry _ entry cause => .unreadEntry path entry cause
  | .undecoded _ entry cause => .undecoded path entry cause

@[simp] theorem Diagnostic.scope_moveTo (path : String) (d : Diagnostic) :
    (d.moveTo path).scope = d.scope := by
  cases d <;> rfl

@[simp] theorem Diagnostic.moveTo_moveTo (path path' : String) (d : Diagnostic) :
    (d.moveTo path').moveTo path = d.moveTo path := by
  cases d <;> rfl

namespace Scan

def moveTo (path : String) (s : Scan) : Scan :=
  { s with path := path, diagnostics := s.diagnostics.map (Diagnostic.moveTo path) }

@[simp] theorem moveTo_moveTo (path path' : String) (s : Scan) :
    (s.moveTo path').moveTo path = s.moveTo path := by
  simp [moveTo, Function.comp_def]

/-- That two archives list the same members, each in an order of its own: every local header
can be read, and no two class entries have the same name. -/
structure SameMembers (bs : Bytes) (ms : List Member) (bs' : Bytes) (ms' : List Member) :
    Prop where
  located : ∀ m ∈ ms, ∃ start, m.dataOffset bs = .ok start
  located' : ∀ m ∈ ms', ∃ start, m.dataOffset bs' = .ok start
  presented : (ms.map (presented bs)).Perm (ms'.map (presented bs'))
  distinct : ((ms.filter isClassEntry).map Member.name).Nodup

theorem classesOf_canonical {ps qs : List Presented} (hp : ps.Perm qs)
    (hn : ((ps.filter (isNamedByClass Prod.fst)).map Prod.fst).Nodup) :
    classesOf Prod.fst .canonical ps = classesOf Prod.fst .canonical qs := by
  have perm : (classesOf Prod.fst .canonical ps).Perm (classesOf Prod.fst .canonical qs) :=
    (classesOf_perm _ _ ps).trans ((hp.filter _).trans (classesOf_perm _ _ qs).symm)
  have names : ((classesOf Prod.fst .canonical ps).map Prod.fst).Nodup :=
    ((classesOf_perm _ _ ps).map Prod.fst).nodup_iff.mpr hn
  apply List.Perm.eq_of_pairwise _ (sorted_byName _ _) (sorted_byName _ _) perm
  intro p q hpm hqm hle hge
  exact List.inj_on_of_nodup_map names hpm (perm.mem_iff.mpr hqm) (String.le_antisymm hle hge)

section Moving

variable (path path' : String) (p : Presented)

theorem visitOf_abort : visitOf path p = .abort ↔ p.2 = .error .abort := by
  unfold visitOf
  split
  · simp_all
  · simp_all
  · rename_i hp
    split <;> simp [hp]

theorem header?_visitOf : (visitOf path' p).header? = (visitOf path p).header? := by
  unfold visitOf
  split
  · rfl
  · rfl
  · split <;> rfl

theorem diagnostic?_visitOf : (visitOf path' p).diagnostic? =
    (visitOf path p).diagnostic?.map (Diagnostic.moveTo path') := by
  unfold visitOf
  split
  · rfl
  · rfl
  · split <;> rfl

end Moving

variable {t t' : FileTree} {path path' : String} {bs bs' : Bytes} {ms ms' : List Member}

theorem run_moved (ho : Opens t path bs ms) (ho' : Opens t' path' bs' ms')
    (h : SameMembers bs ms bs' ms') : (run t' .canonical path').value? =
      (run t .canonical path).value?.map (moveTo path') := by
  have names : (((ms.map (presented bs)).filter (isNamedByClass Prod.fst)).map Prod.fst).Nodup := by
    rw [List.filter_map, List.map_map]
    exact h.distinct
  rw [run_opens .canonical ho, run_opens .canonical ho', value?_located path .canonical h.located,
    value?_located path' .canonical h.located', ← classesOf_canonical h.presented names]
  simp only [ne_eq, visitOf_abort]
  split
  · simp only [header?_visitOf path path', diagnostic?_visitOf path path', Option.map_some,
      moveTo, List.map_filterMap]
  · rfl

end Scan

end JarIndex
