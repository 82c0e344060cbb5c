import JarIndex.Proofs.Scan.Accounting
import JarIndex.Proofs.Scan.Canonical

/-!
# Scanning a written archive

A scan of an archive gives what was written into it: one header or one diagnostic
for the data of each entry that is named like a class file. Canonical order sorts
them by name and leaves those with the same name in the order they were written.
-/

set_option autoImplicit false

namespace JarIndex

open Archive (Member Packed Sound membersOf placed written)

namespace Archive.Packed

def isClass (p : Packed) : Bool := Scan.classSuffix.toList.isSuffixOf p.name.toList

def header? (p : Packed) : Option ClassFile.Header := (ClassFile.parse p.data).toOption

def undecoded? (path : String) (p : Packed) : Option Diagnostic :=
  match ClassFile.parse p.data with
  | .ok _ => none
  | .error e => some (.undecoded path p.name e)

end Archive.Packed

namespace Scan

/-- That a list is sorted by name and that those with the same name keep their order. -/
structure StablySorted {α : Type} (name : α → String) (l sorted : List α) : Prop where
  perm : sorted.Perm l
  ordered : sorted.Pairwise fun a b => name a ≤ name b
  stable : ∀ n, sorted.filter (name · = n) = l.filter (name · = n)

theorem stablySorted_mergeSort {α : Type} (name : α → String) (l : List α) :
    StablySorted name l (l.mergeSort (byName name)) := by
  constructor
  · exact List.mergeSort_perm _ _
  · exact sorted_byName name l
  · intro n
    -- The entries with one name are in order already, so sorting leaves them as they are.
    have ordered : (l.filter (name · = n)).Pairwise fun a b => byName name a b = true := by
      apply List.pairwise_of_forall_mem_list
      intro a ha b hb
      have hna := (List.mem_filter.mp ha).2
      have hnb := (List.mem_filter.mp hb).2
      simp only [decide_eq_true_eq] at hna hnb
      simp [byName, hna, hnb]
    have kept := (List.sublist_mergeSort (byName_trans name) (byName_total name) ordered
      List.filter_sublist).filter (name · = n)
    simp only [List.filter_filter, Bool.and_self] at kept
    apply (kept.eq_of_length _).symm
    exact ((List.mergeSort_perm l (byName name)).filter _).length_eq.symm

def InVisitOrder (order : EntryOrder) (classes visits : List Packed) : Prop :=
  match order with
  | .native => visits = classes
  | .canonical => StablySorted Packed.name classes visits

theorem classesOf_inVisitOrder (order : EntryOrder) (ps : List Packed) :
    InVisitOrder order (ps.filter Packed.isClass) (classesOf Packed.name order ps) := by
  cases order with
  | native => rfl
  | canonical => exact stablySorted_mergeSort Packed.name _

theorem placed_map_fst (offset : Nat) (ps : List Packed) :
    (placed offset ps).map Prod.fst = ps := by
  induction ps generalizing offset with
  | nil => rfl
  | cons p ps ih => rw [placed, List.map_cons, ih]

def presentedOf (p : Packed) : Presented := (p.name, .ok p.data)

theorem presented_written (front : Bytes) (ps : List Packed) :
    (membersOf front ps).map (presented (written front ps)) = ps.map presentedOf := by
  have hp : ∀ e ∈ placed 0 ps,
      presented (written front ps) (e.1.member (e.2 + front.length)) = presentedOf e.1 := by
    intro e he
    have hr := Archive.readable_written front he
    unfold presented
    rw [Member.content_eq_ok.mpr hr]
    rfl
  calc
    _ = ((placed 0 ps).map Prod.fst).map presentedOf := by
      rw [membersOf, List.map_map, List.map_map]
      exact List.map_congr_left hp
    _ = _ := by rw [placed_map_fst]

theorem located_written (front : Bytes) (ps : List Packed) : ∀ m ∈ membersOf front ps,
    ∃ start, m.dataOffset (written front ps) = .ok start := by
  intro m hm
  obtain ⟨e, he, rfl⟩ := List.mem_map.mp hm
  obtain ⟨start, hs, _⟩ := (Archive.readable_written front he).decompressed
  exact ⟨start, hs⟩

theorem classNames_written (front : Bytes) (ps : List Packed) :
    ((membersOf front ps).filter isClassEntry).map Member.name =
      (ps.filter Packed.isClass).map Packed.name := by
  have hc : (ps.filter Packed.isClass).map Packed.name =
      (((placed 0 ps).map Prod.fst).filter Packed.isClass).map Packed.name := by
    rw [placed_map_fst]
  rw [hc, membersOf, List.filter_map, List.filter_map, List.map_map, List.map_map]
  rfl

theorem sameMembers_written (front front' : Bytes) {ps ps' : List Packed} (hp : ps.Perm ps')
    (hn : ((ps.filter Packed.isClass).map Packed.name).Nodup) :
    SameMembers (written front ps) (membersOf front ps) (written front' ps')
      (membersOf front' ps') := by
  constructor
  · exact located_written front ps
  · exact located_written front' ps'
  · rw [presented_written, presented_written]
    exact hp.map _
  · rw [classNames_written]
    exact hn

theorem opens_written {t : FileTree} {path : String} {front : Bytes} {ps : List Packed}
    (hf : t.openNode path = .ok (.file (written front ps))) (h : Sound front ps) :
    Opens t path (written front ps) (membersOf front ps) :=
  ⟨hf, Archive.members_written h⟩

section Visits

variable (path : String) (p : Packed)

theorem visitOf_ne_abort : visitOf path (presentedOf p) ≠ .abort := by
  unfold visitOf presentedOf
  dsimp only
  split <;> simp

theorem header?_presentedOf : (visitOf path (presentedOf p)).header? = p.header? := by
  unfold visitOf presentedOf Packed.header?
  dsimp only
  cases ClassFile.parse p.data <;> rfl

theorem diagnostic?_presentedOf :
    (visitOf path (presentedOf p)).diagnostic? = p.undecoded? path := by
  unfold visitOf presentedOf Packed.undecoded?
  dsimp only
  cases ClassFile.parse p.data <;> rfl

end Visits

/-- A scan of a written archive gives the headers of the class entries whose data is that of a
class file, and one diagnostic for each of the others, in the order of the visits. -/
theorem run_written (t : FileTree) (order : EntryOrder) (path : String) (front : Bytes)
    (ps : List Packed) (hf : t.openNode path = .ok (.file (written front ps)))
    (h : Sound front ps) :
    ∃ visits, InVisitOrder order (ps.filter Packed.isClass) visits ∧
      (run t order path).value? = some ⟨path, .scanned, (ps.filter Packed.isClass).length,
        visits.filterMap Packed.header?, visits.filterMap (Packed.undecoded? path)⟩ := by
  have hc : classesOf Prod.fst order (ps.map presentedOf) =
      (classesOf Packed.name order ps).map presentedOf :=
    classesOf_map Prod.fst order presentedOf ps
  refine ⟨classesOf Packed.name order ps, classesOf_inVisitOrder order ps, ?_⟩
  rw [run_opens order (opens_written hf h), value?_located path order (located_written front ps),
    presented_written, hc, if_pos]
  · simp only [List.length_map, List.filterMap_map, Function.comp_def,
      header?_presentedOf, diagnostic?_presentedOf]
    rw [(classesOf_perm Packed.name order ps).length_eq]
    rfl
  · intro p hp
    obtain ⟨q, _, rfl⟩ := List.mem_map.mp hp
    exact visitOf_ne_abort path q

theorem run_written_sample : Sound Archive.Locator.mark writtenEntries ∧
    (run writtenTree .native "/b.jar").value? = some ⟨"/b.jar", .scanned, 2,
      [⟨"p.B", some "B.java"⟩],
      [.undecoded "/b.jar" "A.class" (.unexpectedEnd 6)]⟩ := by
  have hf : writtenTree.openNode "/b.jar" =
      .ok (.file (written Archive.Locator.mark writtenEntries)) := by decide +kernel
  have hs : Sound Archive.Locator.mark writtenEntries := by decide +kernel
  obtain ⟨visits, hv, hr⟩ := run_written writtenTree .native "/b.jar" _ _ hf hs
  have hv : visits = writtenEntries.filter Packed.isClass := hv
  refine ⟨hs, ?_⟩
  rw [hr, hv]
  decide +kernel

end Scan

end JarIndex
