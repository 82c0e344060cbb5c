import JarIndex.Proofs.Run
import JarIndex.Proofs.Scan.Entries

/-!
# What a scan gives

The value of a scan in each case: there is nothing at the path, or no archive, or
an archive, whose class entries are visited in order. There is a value unless some
visit aborts.
-/

set_option autoImplicit false

namespace JarIndex.Scan

open Archive (Member)
open ClassFile (Header)

structure Opens (t : FileTree) (path : String) (bs : Bytes) (ms : List Member) : Prop where
  file : t.openNode path = .ok (.file bs)
  members : Archive.members bs = .ok ms

namespace Visit

def header? : Visit → Option Header
  | .header h => some h
  | _ => none

def diagnostic? : Visit → Option Diagnostic
  | .diagnostic d => some d
  | _ => none

end Visit

theorem value?_visitAll (path : String) (bs : Bytes) (ms : List Member) :
    (visitAll path bs ms).value? =
      if ∀ m ∈ ms, visit path bs m ≠ .abort then
        some (ms.filterMap fun m => (visit path bs m).header?,
          ms.filterMap fun m => (visit path bs m).diagnostic?)
      else none := by
  induction ms with
  | nil => rfl
  | cons m ms ih =>
    rw [visitAll]
    cases hv : visit path bs m with
    | abort => simp [hv]
    | header h =>
      show (visitAll path bs ms >>= fun _ => _).value? = _
      rw [Run.value?_bind, ih]
      by_cases ha : ∀ m ∈ ms, visit path bs m ≠ .abort
      · rw [if_pos ha, if_pos (by simpa [hv] using ha)]
        simp [hv, Visit.header?, Visit.diagnostic?]
      · rw [if_neg ha, if_neg (by simpa [hv] using ha)]
        rfl
    | diagnostic d =>
      show (warn d >>= fun _ => visitAll path bs ms >>= fun _ => _).value? = _
      rw [Run.value?_bind, warn, Run.value?_log, Option.bind_some, Run.value?_bind, ih]
      by_cases ha : ∀ m ∈ ms, visit path bs m ≠ .abort
      · rw [if_pos ha, if_pos (by simpa [hv] using ha)]
        simp [hv, Visit.header?, Visit.diagnostic?]
      · rw [if_neg ha, if_neg (by simpa [hv] using ha)]
        rfl

def visited (order : EntryOrder) (bs : Bytes) (ms : List Member) : List Entry :=
  inOrder order (classEntriesFrom bs 0 ms)

theorem value?_ofMembers (path : String) (order : EntryOrder) (bs : Bytes) (ms : List Member) :
    (ofMembers path order bs ms).value? =
      if ∀ e ∈ visited order bs ms, visit path bs e.1 ≠ .abort then
        some ⟨path, .scanned, (visited order bs ms).length,
          (visited order bs ms).filterMap fun e => (visit path bs e.1).header?,
          (lostFrom bs 0 ms).map (unlisted path) ++
            (visited order bs ms).filterMap fun e => (visit path bs e.1).diagnostic?⟩
      else none := by
  have hl : (classEntriesFrom bs 0 ms).length = (visited order bs ms).length :=
    (inOrder_perm order _).length_eq.symm
  have ha : arranged order ((classEntriesFrom bs 0 ms).map Prod.fst) =
      (visited order bs ms).map Prod.fst := arranged_map_fst order _
  have hw : ∀ ds : List Diagnostic, (ds.forM warn).value? = some () :=
    Run.value?_forM fun _ => rfl
  unfold ofMembers
  rw [listed_eq]
  simp only [ha, Run.value?_bind, hw, value?_visitAll, Option.bind_some, List.forall_mem_map]
  by_cases hv : ∀ e ∈ visited order bs ms, visit path bs e.1 ≠ .abort
  · rw [if_pos hv, if_pos hv]
    simp only [debug, hl, List.filterMap_map, Run.value?_log, Option.bind_some,
      Run.value?_pure, List.length_map]
    rfl
  · rw [if_neg hv, if_neg hv]
    rfl

section Cases

variable {t : FileTree} {path : String} {bs : Bytes} {ms : List Member}

theorem exists_of_openNode {n : Node} (h : t.openNode path = .ok n) : t.doesExist path = true := by
  unfold FileTree.openNode at h
  unfold FileTree.doesExist
  split at h
  · cases h
  · rename_i hn
    rw [hn]
  · cases h

theorem Opens.unique {bs' : Bytes} {ms' : List Member} (h : Opens t path bs ms)
    (h' : Opens t path bs' ms') : bs' = bs ∧ ms' = ms := by
  have hb := h'.file
  rw [h.file] at hb
  cases hb
  have hm := h'.members
  rw [h.members] at hm
  cases hm
  exact ⟨rfl, rfl⟩

theorem run_missing (order : EntryOrder) (h : t.doesExist path = false) :
    (run t order path).value? = some ⟨path, .missing, 0, [], []⟩ := by
  unfold run
  rw [if_pos (by simp [h])]
  rfl

theorem run_opens (order : EntryOrder) (h : Opens t path bs ms) :
    run t order path = ofMembers path order bs ms := by
  have he := exists_of_openNode h.file
  unfold run
  rw [if_neg (by simp [he])]
  simp only [h.file, h.members]

theorem run_failed (order : EntryOrder) (he : t.doesExist path = true)
    (hn : ¬ ∃ bs ms, Opens t path bs ms) : ∃ d : Diagnostic, d.scope = .archive ∧ d.archive = path ∧
      (run t order path).value? = some ⟨path, .failed, 0, [], [d]⟩ := by
  unfold run
  rw [if_neg (by simp [he])]
  cases ho : t.openNode path with
  | error f => exact ⟨.unopened path f, rfl, rfl, rfl⟩
  | ok n =>
    cases n with
    | file bs =>
      cases hm : Archive.members bs with
      | error f =>
        refine ⟨.notAnArchive path f, rfl, rfl, ?_⟩
        simp only [hm]
        rfl
      | ok ms => exact absurd ⟨bs, ms, ho, hm⟩ hn
    | _ => exact ⟨.unopened path .noDevice, rfl, rfl, rfl⟩

theorem run_path {order : EntryOrder} {scan : Scan}
    (h : (run t order path).value? = some scan) : scan.path = path := by
  by_cases he : t.doesExist path = true
  · by_cases ho : ∃ bs ms, Opens t path bs ms
    · obtain ⟨bs, ms, ho⟩ := ho
      rw [run_opens order ho, value?_ofMembers] at h
      split at h
      · cases h
        rfl
      · cases h
    · obtain ⟨d, -, -, hr⟩ := run_failed order he ho
      rw [hr] at h
      cases h
      rfl
  · rw [run_missing order (by simpa using he)] at h
    cases h
    rfl

end Cases

end JarIndex.Scan
