import JarIndex.Proofs.Scan.Outcome

/-!
# Scans in another order

The order of the visits decides on the order of what a scan gives and on nothing
else. Where there is no archive it does not matter at all.
-/

set_option autoImplicit false

namespace JarIndex.Scan

open Archive (Member)

/-- That two scans give the same in orders of their own. -/
structure Reorders (a b : Scan) : Prop where
  status : a.status = b.status
  headers : a.headers.Perm b.headers
  diagnostics : a.diagnostics.Perm b.diagnostics

theorem Reorders.refl (a : Scan) : Reorders a a := ⟨rfl, .refl _, .refl _⟩

variable {t : FileTree} {order order' : EntryOrder} {path : String} {bs : Bytes}
  {ms : List Member} {a b : Scan}

theorem visited_perm : (visited order bs ms).Perm (visited order' bs ms) :=
  (inOrder_perm order _).trans (inOrder_perm order' _).symm

theorem ofMembers_reorders (ha : (ofMembers path order bs ms).value? = some a)
    (hb : (ofMembers path order' bs ms).value? = some b) : Reorders a b := by
  rw [value?_ofMembers] at ha hb
  split at ha
  · split at hb
    · cases ha
      cases hb
      exact ⟨rfl, visited_perm.filterMap _, (visited_perm.filterMap _).append_left _⟩
    · cases hb
  · cases ha

theorem run_unopened (order order' : EntryOrder) (hn : ¬ ∃ bs ms, Opens t path bs ms) :
    run t order path = run t order' path := by
  unfold run
  split
  · rfl
  · cases ho : t.openNode path with
    | error f => rfl
    | ok n =>
      cases n with
      | file bs =>
        cases hm : Archive.members bs with
        | error f => simp only [hm]
        | ok ms => exact absurd ⟨bs, ms, ho, hm⟩ hn
      | _ => rfl

theorem run_reorders (ha : (run t order path).value? = some a)
    (hb : (run t order' path).value? = some b) : Reorders a b := by
  by_cases ho : ∃ bs ms, Opens t path bs ms
  · obtain ⟨bs, ms, ho⟩ := ho
    rw [run_opens order ho] at ha
    rw [run_opens order' ho] at hb
    exact ofMembers_reorders ha hb
  · rw [run_unopened order order' ho, hb] at ha
    cases ha
    exact Reorders.refl _

end JarIndex.Scan
