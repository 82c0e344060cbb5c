import JarIndex.Mapping.Aggregator
import JarIndex.Proofs.Mapping.Ordered
import Mathlib.Data.List.Perm.Subperm

/-!
# Mappings that group records

Records say which class declared which source file, in order. Mappings group them
if there is one for each source file, with all its names and the package of the
last one. Grouped mappings of two runs of records merge; records made twice are
grouped as those made once. Neither the mappings nor their names outnumber the
records.
-/

set_option autoImplicit false

namespace JarIndex

open ClassFile (Header packageOf)
open Ordered (Sorted)

structure Record where
  sourceFile : String
  className : String
  deriving DecidableEq, Repr

namespace Record

def namesOf (rs : List Record) (s : String) : List String :=
  (rs.filter (·.sourceFile = s)).map Record.className

def ofHeader (h : Header) : Option Record := h.sourceFile.map fun s => ⟨s, h.className⟩

theorem namesOf_append (rs rs' : List Record) (s : String) :
    namesOf (rs ++ rs') s = namesOf rs s ++ namesOf rs' s := by
  simp [namesOf]

theorem namesOf_singleton (r : Record) (s : String) :
    namesOf [r] s = if r.sourceFile = s then [r.className] else [] := by
  unfold namesOf
  by_cases h : r.sourceFile = s <;> simp [h]

theorem mem_namesOf {rs : List Record} {s c : String} : c ∈ namesOf rs s ↔ ⟨s, c⟩ ∈ rs := by
  simp only [namesOf, List.mem_map, List.mem_filter, decide_eq_true_eq]
  constructor
  · intro hw
    obtain ⟨r, ⟨hr, rfl⟩, rfl⟩ := hw
    exact hr
  · intro h
    exact ⟨_, ⟨h, rfl⟩, rfl⟩

theorem namesOf_ne_nil {rs : List Record} {s : String} :
    namesOf rs s ≠ [] ↔ s ∈ rs.map Record.sourceFile := by
  simp [namesOf, List.filter_eq_nil_iff]

end Record

def Mapping.records (m : Mapping) : List Record :=
  m.classNames.map fun className => ⟨m.sourceFile, className⟩

structure Tidy (ms : List Mapping) : Prop where
  ordered : Sorted (ms.map Mapping.sourceFile)
  names_ordered : ∀ m ∈ ms, Sorted m.classNames

/-- Mappings that group records by source file. -/
structure Groups (rs : List Record) (ms : List Mapping) : Prop extends Tidy ms where
  sources : ∀ s, s ∈ ms.map Mapping.sourceFile ↔ s ∈ rs.map Record.sourceFile
  names : ∀ m ∈ ms, ∀ c, c ∈ m.classNames ↔ ⟨m.sourceFile, c⟩ ∈ rs
  package : ∀ m ∈ ms, ∃ c, (Record.namesOf rs m.sourceFile).getLast? = some c ∧
    m.package = packageOf c

theorem Tidy.ext {ms ms' : List Mapping} (h : Tidy ms) (h' : Tidy ms')
    (hs : ∀ s, s ∈ ms.map Mapping.sourceFile ↔ s ∈ ms'.map Mapping.sourceFile)
    (hn : ∀ m ∈ ms, ∀ m' ∈ ms', m.sourceFile = m'.sourceFile →
      ∀ c, c ∈ m.classNames ↔ c ∈ m'.classNames)
    (hp : ∀ m ∈ ms, ∀ m' ∈ ms', m.sourceFile = m'.sourceFile → m.package = m'.package) :
    ms = ms' := by
  have hk := Ordered.sorted_ext h.ordered h'.ordered hs
  apply List.ext_getElem
  · simpa using congrArg List.length hk
  · intro i hi hi'
    have hm := List.getElem_mem hi
    have hm' := List.getElem_mem hi'
    have hget := List.getElem_of_eq hk (i := i) (by simpa using hi)
    have hsource : ms[i].sourceFile = ms'[i].sourceFile := by simpa using hget
    have hnames := Ordered.sorted_ext (h.names_ordered _ hm) (h'.names_ordered _ hm')
      (hn _ hm _ hm' hsource)
    have hpackage := hp _ hm _ hm' hsource
    generalize ms[i] = m at *
    generalize ms'[i] = m' at *
    cases m
    cases m'
    simp_all

theorem Groups.unique {rs : List Record} {ms ms' : List Mapping} (h : Groups rs ms)
    (h' : Groups rs ms') : ms = ms' := by
  apply h.toTidy.ext h'.toTidy
  · intro s
    rw [h.sources s, h'.sources s]
  · intro m hm m' hm' hs c
    rw [h.names m hm, h'.names m' hm', hs]
  · intro m hm m' hm' hs
    obtain ⟨c, hc, hp⟩ := h.package m hm
    obtain ⟨c', hc', hp'⟩ := h'.package m' hm'
    rw [hs, hc'] at hc
    cases hc
    rw [hp, hp']

/-- That `zs` has the source files and names of `xs` and `ys`, and the packages of `ys` before
those of `xs`. -/
structure Merges (xs ys zs : List Mapping) : Prop extends Tidy zs where
  sources : ∀ s, s ∈ zs.map Mapping.sourceFile ↔
    s ∈ xs.map Mapping.sourceFile ∨ s ∈ ys.map Mapping.sourceFile
  names : ∀ z ∈ zs, ∀ c, c ∈ z.classNames ↔
    ∃ m, (m ∈ xs ∨ m ∈ ys) ∧ m.sourceFile = z.sourceFile ∧ c ∈ m.classNames
  later : ∀ z ∈ zs, ∀ y ∈ ys, y.sourceFile = z.sourceFile → z.package = y.package
  earlier : ∀ z ∈ zs, z.sourceFile ∉ ys.map Mapping.sourceFile →
    ∀ x ∈ xs, x.sourceFile = z.sourceFile → z.package = x.package

namespace Merges

variable {xs ys zs zs' : List Mapping}

theorem package_eq (h : Merges xs ys zs) (h' : Merges xs ys zs') {z z' : Mapping} (hz : z ∈ zs)
    (hz' : z' ∈ zs') (hs : z.sourceFile = z'.sourceFile) : z.package = z'.package := by
  by_cases hy : z.sourceFile ∈ ys.map Mapping.sourceFile
  · obtain ⟨y, hym, hys⟩ := List.mem_map.mp hy
    rw [h.later z hz y hym hys, h'.later z' hz' y hym (hys.trans hs)]
  · have hx : z.sourceFile ∈ xs.map Mapping.sourceFile := by
      have hm := (h.sources z.sourceFile).mp (List.mem_map_of_mem hz)
      exact hm.resolve_right hy
    obtain ⟨x, hxm, hxs⟩ := List.mem_map.mp hx
    rw [h.earlier z hz hy x hxm hxs, h'.earlier z' hz' (hs ▸ hy) x hxm (hxs.trans hs)]

theorem unique (h : Merges xs ys zs) (h' : Merges xs ys zs') : zs = zs' := by
  apply h.toTidy.ext h'.toTidy
  · intro s
    rw [h.sources s, h'.sources s]
  · intro z hz z' hz' hs c
    rw [h.names z hz, h'.names z' hz', hs]
  · intro z hz z' hz' hs
    exact h.package_eq h' hz hz' hs

end Merges

namespace Groups

variable {rs rs' : List Record} {xs ys zs : List Mapping}

theorem mem_names (h : Groups rs xs) (s c : String) :
    ⟨s, c⟩ ∈ rs ↔ ∃ m ∈ xs, m.sourceFile = s ∧ c ∈ m.classNames := by
  constructor
  · intro hr
    have hs : s ∈ rs.map Record.sourceFile := List.mem_map_of_mem hr
    obtain ⟨m, hm, rfl⟩ := List.mem_map.mp ((h.sources s).mpr hs)
    exact ⟨m, hm, rfl, (h.names m hm c).mpr hr⟩
  · intro hm
    obtain ⟨m, hm, rfl, hc⟩ := hm
    exact (h.names m hm c).mp hc

theorem namesOf_eq_nil (h : Groups rs xs) {s : String} (hs : s ∉ xs.map Mapping.sourceFile) :
    Record.namesOf rs s = [] := by
  by_contra hn
  exact hs ((h.sources s).mpr (Record.namesOf_ne_nil.mp hn))

theorem append (hx : Groups rs xs) (hy : Groups rs' ys) (hz : Groups (rs ++ rs') zs) :
    Merges xs ys zs := by
  constructor
  · exact hz.toTidy
  · intro s
    rw [hz.sources s, hx.sources s, hy.sources s, List.map_append, List.mem_append]
  · intro z hz' c
    rw [hz.names z hz', List.mem_append, hx.mem_names, hy.mem_names]
    simp only [or_and_right, exists_or]
  · intro z hz' y hy' hs
    obtain ⟨c, hc, hp⟩ := hz.package z hz'
    obtain ⟨d, hd, hq⟩ := hy.package y hy'
    rw [hs] at hd
    rw [Record.namesOf_append, List.getLast?_append, hd] at hc
    cases hc
    rw [hp, hq]
  · intro z hz' hn x hx' hs
    obtain ⟨c, hc, hp⟩ := hz.package z hz'
    obtain ⟨d, hd, hq⟩ := hx.package x hx'
    rw [Record.namesOf_append, hy.namesOf_eq_nil hn, List.append_nil, ← hs, hd] at hc
    cases hc
    rw [hp, hq]

theorem twice (h : Groups rs xs) : Groups (rs ++ rs) xs := by
  constructor
  · exact h.toTidy
  · intro s
    rw [h.sources s, List.map_append, List.mem_append, or_self]
  · intro m hm c
    rw [h.names m hm, List.mem_append, or_self]
  · intro m hm
    obtain ⟨c, hc, hp⟩ := h.package m hm
    refine ⟨c, ?_, hp⟩
    rw [Record.namesOf_append, List.getLast?_append, hc]
    rfl

theorem eq_nil_iff (h : Groups rs xs) : xs = [] ↔ rs = [] := by
  rw [← List.map_eq_nil_iff (f := Mapping.sourceFile), ← List.map_eq_nil_iff (f := Record.sourceFile),
    List.eq_nil_iff_forall_not_mem, List.eq_nil_iff_forall_not_mem]
  simp only [h.sources]

theorem length_le (h : Groups rs xs) : xs.length ≤ rs.length := by
  have hd := Ordered.nodup_of_sorted h.ordered
  have hs : xs.map Mapping.sourceFile ⊆ rs.map Record.sourceFile := fun s => (h.sources s).mp
  simpa using (List.subperm_of_subset hd hs).length_le

theorem records_nodup (h : Groups rs xs) : (xs.flatMap Mapping.records).Nodup := by
  apply List.nodup_flatMap.mpr
  constructor
  · intro m hm
    apply (Ordered.nodup_of_sorted (h.names_ordered m hm)).map
    intro c d hcd
    exact (Record.mk.inj hcd).2
  · apply (List.pairwise_map.mp h.ordered).imp
    intro m m' hlt r hr hr'
    obtain ⟨c, -, rfl⟩ := List.mem_map.mp hr
    obtain ⟨d, -, hd⟩ := List.mem_map.mp hr'
    rw [(Record.mk.inj hd).1] at hlt
    exact String.lt_irrefl _ hlt

theorem records_subset (h : Groups rs xs) : xs.flatMap Mapping.records ⊆ rs := by
  intro r hr
  obtain ⟨m, hm, hr⟩ := List.mem_flatMap.mp hr
  obtain ⟨c, hc, rfl⟩ := List.mem_map.mp hr
  exact (h.names m hm c).mp hc

theorem length_names_le (h : Groups rs xs) :
    (xs.flatMap Mapping.classNames).length ≤ rs.length := by
  have hl := (List.subperm_of_subset h.records_nodup h.records_subset).length_le
  simpa [List.length_flatMap, Mapping.records] using hl

end Groups

end JarIndex
