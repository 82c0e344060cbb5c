import JarIndex.Proofs.Scan.Outcome

/-!
# What is presented of the members

What a scan tells of a member depends on the name and the content that are
presented of it. Where every local header can be read, the value of a scan is told
by what is presented of the members, in the order of the directory.
-/

set_option autoImplicit false

namespace JarIndex.Scan

open Archive (Member Unreadable)

section Names

variable {α β : Type} (name : α → String)

def isNamedByClass (a : α) : Bool := classSuffix.toList.isSuffixOf (name a).toList

/-- Those that are named like class files, in the order of their visits. -/
def classesOf (order : EntryOrder) (l : List α) : List α :=
  match order with
  | .native => l.filter (isNamedByClass name)
  | .canonical => (l.filter (isNamedByClass name)).mergeSort (byName name)

theorem sorted_byName (l : List α) :
    (l.mergeSort (byName name)).Pairwise fun a b => name a ≤ name b := by
  apply (List.pairwise_mergeSort (byName_trans name) (byName_total name) l).imp
  intro a b h
  simpa [byName] using h

theorem classesOf_perm (order : EntryOrder) (l : List α) :
    (classesOf name order l).Perm (l.filter (isNamedByClass name)) := by
  cases order with
  | native => exact .refl _
  | canonical => exact List.mergeSort_perm _ _

theorem classesOf_sorted (order : EntryOrder) {l : List α}
    (h : (l.filter (isNamedByClass name)).Pairwise fun a b => byName name a b) :
    classesOf name order l = classesOf name .native l := by
  cases order with
  | native => rfl
  | canonical => exact List.mergeSort_of_pairwise h

theorem classesOf_map (order : EntryOrder) (f : β → α) (l : List β) :
    classesOf name order (l.map f) = (classesOf (name ∘ f) order l).map f := by
  cases order with
  | native => exact List.filter_map
  | canonical =>
    unfold classesOf
    dsimp only
    rw [List.filter_map]
    apply (List.map_mergeSort _).symm
    intro a _ b _
    rfl

end Names

/-- What is presented of a member: its name, and its content or why there is none. -/
abbrev Presented := String × Except Unreadable Bytes

def presented (bs : Bytes) (m : Member) : Presented := (m.name, m.content bs)

def visitOf (path : String) (p : Presented) : Visit :=
  match p.2 with
  | .error .abort => .abort
  | .error (.fault f) => .diagnostic (.unreadEntry path p.1 f)
  | .ok content =>
    match ClassFile.parse content with
    | .ok h => .header h
    | .error e => .diagnostic (.undecoded path p.1 e)

theorem visit_eq (path : String) (bs : Bytes) (m : Member) :
    visit path bs m = visitOf path (presented bs m) := rfl

def presentedEntries (order : EntryOrder) (bs : Bytes) (ms : List Member) : List Presented :=
  (visited order bs ms).map fun e => presented bs e.1

theorem value?_presented (path : String) (order : EntryOrder) (bs : Bytes) (ms : List Member) :
    (ofMembers path order bs ms).value? =
      if ∀ p ∈ presentedEntries order bs ms, visitOf path p ≠ .abort then
        some ⟨path, .scanned, (presentedEntries order bs ms).length,
          (presentedEntries order bs ms).filterMap fun p => (visitOf path p).header?,
          (lostFrom bs 0 ms).map (unlisted path) ++
            (presentedEntries order bs ms).filterMap fun p => (visitOf path p).diagnostic?⟩
      else none := by
  rw [value?_ofMembers]
  unfold presentedEntries
  simp only [visit_eq, List.forall_mem_map, List.length_map, List.filterMap_map]
  rfl

theorem presentedEntries_eq (order : EntryOrder) (bs : Bytes) (ms : List Member) :
    presentedEntries order bs ms =
      classesOf Prod.fst order ((classEntriesFrom bs 0 ms).map fun e => presented bs e.1) := by
  have named : ∀ p ∈ (classEntriesFrom bs 0 ms).map fun e => presented bs e.1,
      isNamedByClass Prod.fst p = true := by
    intro p hp
    obtain ⟨e, he, rfl⟩ := List.mem_map.mp hp
    exact (mem_classEntries.mp he).2.2
  have kept := List.filter_eq_self.mpr named
  unfold presentedEntries visited
  cases order with
  | native => exact kept.symm
  | canonical =>
    unfold classesOf
    dsimp only
    rw [kept]
    apply List.map_mergeSort
    intro a _ b _
    rfl

section Located

variable {bs : Bytes} {ms : List Member}

theorem classEntries_located (h : ∀ m ∈ ms, ∃ start, m.dataOffset bs = .ok start) :
    (classEntriesFrom bs 0 ms).map Prod.fst = ms.filter isClassEntry := by
  have hl : ∀ e ∈ ms.zipIdx, isListed bs e = (isClassEntry ∘ Prod.fst) e := by
    intro e he
    exact isListed_located (h e.1 (List.fst_mem_of_mem_zipIdx he))
  unfold classEntriesFrom
  rw [List.filter_congr hl, ← List.filter_map, List.zipIdx_map_fst]

theorem lost_located (h : ∀ m ∈ ms, ∃ start, m.dataOffset bs = .ok start) :
    lostFrom bs 0 ms = [] := by
  unfold lostFrom
  rw [List.filterMap_eq_nil_iff]
  intro e he
  exact lost?_located (h e.1 (List.fst_mem_of_mem_zipIdx he))

theorem visited_located (order : EntryOrder)
    (h : ∀ m ∈ ms, ∃ start, m.dataOffset bs = .ok start) :
    (visited order bs ms).map Prod.fst = classesOf Member.name order ms := by
  rw [visited, ← arranged_map_fst, classEntries_located h]
  cases order <;> rfl

theorem value?_located (path : String) (order : EntryOrder)
    (h : ∀ m ∈ ms, ∃ start, m.dataOffset bs = .ok start) :
    (ofMembers path order bs ms).value? =
      if ∀ p ∈ classesOf Prod.fst order (ms.map (presented bs)), visitOf path p ≠ .abort then
        some ⟨path, .scanned, (classesOf Prod.fst order (ms.map (presented bs))).length,
          (classesOf Prod.fst order (ms.map (presented bs))).filterMap fun p =>
            (visitOf path p).header?,
          (classesOf Prod.fst order (ms.map (presented bs))).filterMap fun p =>
            (visitOf path p).diagnostic?⟩
      else none := by
  have hc : presentedEntries order bs ms = classesOf Prod.fst order (ms.map (presented bs)) := by
    rw [classesOf_map]
    show _ = (classesOf Member.name order ms).map _
    rw [← visited_located order h, List.map_map]
    rfl
  rw [value?_presented, lost_located h, hc, List.map_nil, List.nil_append]

/-- An archive whose class entries are sorted by name is scanned alike in both orders. -/
theorem run_sorted {t : FileTree} {path : String} (order : EntryOrder)
    (ho : Opens t path bs ms) (hl : ∀ m ∈ ms, ∃ start, m.dataOffset bs = .ok start)
    (h : (ms.filter isClassEntry).Pairwise fun a b => byName Member.name a b) :
    (run t order path).value? = (run t .native path).value? := by
  have hs := classesOf_sorted Member.name order h
  have hc : classesOf Prod.fst order (ms.map (presented bs)) =
      classesOf Prod.fst .native (ms.map (presented bs)) := by
    rw [classesOf_map, classesOf_map]
    exact congrArg (List.map (presented bs)) hs
  rw [run_opens order ho, run_opens .native ho, value?_located path order hl,
    value?_located path .native hl, hc]

end Located

end JarIndex.Scan
