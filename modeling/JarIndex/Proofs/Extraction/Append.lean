import JarIndex.Proofs.Extraction.Folding
import JarIndex.Proofs.Mapping.History
import JarIndex.Proofs.Scan.Outcome

/-!
# Extractions of joined lists of paths

What is extracted from two lists one after the other is what is extracted from
each, joined. A path that gives no header can be put anywhere without a change of
the mappings.
-/

set_option autoImplicit false

namespace JarIndex

structure Joins (e₁ e₂ e : Extraction) : Prop where
  mappings : Merges e₁.mappings e₂.mappings e.mappings
  diagnostics : e.diagnostics = e₁.diagnostics ++ e₂.diagnostics
  stats : e.stats = e₁.stats + e₂.stats

theorem Joins.unique {e₁ e₂ e e' : Extraction} (h : Joins e₁ e₂ e) (h' : Joins e₁ e₂ e') :
    e = e' := by
  have hm := h.mappings.unique h'.mappings
  have hd := h.diagnostics.trans h'.diagnostics.symm
  have hs := h.stats.trans h'.stats.symm
  cases e
  cases e'
  simp_all

namespace Extraction

variable {tree : FileTree} {settings : Settings} {path : String}

theorem joins_ofScans (p q : List String) (ss ss' : List Scan) :
    Joins (ofScans p ss) (ofScans q ss') (ofScans (p ++ q) (ss ++ ss')) := by
  constructor
  · apply Groups.append (Aggregator.finish_groups _) (Aggregator.finish_groups _)
    rw [← List.filterMap_append, ← List.flatMap_append]
    exact Aggregator.finish_groups _
  · exact diagnostics_ofScans_append p q ss ss'
  · exact stats_ofScans_append p q ss ss'

theorem run_append (p q : List String) (e : Extraction) :
    (run tree settings (p ++ q)).value? = some e ↔
      ∃ e₁ e₂, (run tree settings p).value? = some e₁ ∧
        (run tree settings q).value? = some e₂ ∧ Joins e₁ e₂ e := by
  rw [value?_run, value?_run, value?_run, scans_append]
  cases scans tree settings.order p with
  | none => simp
  | some ss =>
    cases scans tree settings.order q with
    | none => simp
    | some ss' =>
      have hj := joins_ofScans p q ss ss'
      constructor
      · intro h
        cases h
        exact ⟨_, _, rfl, rfl, hj⟩
      · intro h
        obtain ⟨_, _, h₁, h₂, hj'⟩ := h
        cases h₁
        cases h₂
        show some (ofScans (p ++ q) (ss ++ ss')) = some e
        rw [hj.unique hj']

def mappingsOf (hs : List ClassFile.Header) : List Mapping := (Aggregator.empty.addAll hs).finish

theorem mappings_run (tree : FileTree) (settings : Settings) (paths : List String) :
    (run tree settings paths).value?.map Extraction.mappings =
      (scans tree settings.order paths).map fun ss => mappingsOf (ss.flatMap Scan.headers) := by
  rw [value?_run, Option.map_map]
  rfl

theorem mappingsOf_twice (hs : List ClassFile.Header) : mappingsOf (hs ++ hs) = mappingsOf hs := by
  have hg := Aggregator.finish_groups (hs ++ hs)
  rw [List.filterMap_append] at hg
  exact hg.unique (Aggregator.finish_groups hs).twice

/-- That a path is blank, has nothing there or leads to what is no archive. -/
def Idle (tree : FileTree) (path : String) : Prop :=
  Text.isBlankText path = true ∨ tree.doesExist path = false ∨
    ¬ ∃ bs ms, Scan.Opens tree path bs ms

theorem scans_blank (order : EntryOrder) (h : Text.isBlankText path = true) :
    scans tree order [path] = some [] := by
  simp [scans, requested, h]

theorem scans_singleton (order : EntryOrder) (h : Text.isBlankText path = false) :
    scans tree order [path] = (Scan.run tree order path).value?.map ([·]) := by
  unfold scans
  rw [show requested [path] = [path] by simp [requested, h], List.mapM_cons]
  cases (Scan.run tree order path).value? <;> rfl

theorem run_singleton (settings : Settings) (h : Text.isBlankText path = false) :
    (run tree settings [path]).value? =
      (Scan.run tree settings.order path).value?.map fun scan =>
        ⟨mappingsOf scan.headers, scan.diagnostics, (Stats.ofPaths 1 0).addScan scan⟩ := by
  rw [value?_run, scans_singleton settings.order h, Option.map_map]
  congr 1
  funext scan
  simp [ofScans, mappingsOf, start, requested, h]

theorem scans_idle (order : EntryOrder) (h : Idle tree path) :
    ∃ ss, scans tree order [path] = some ss ∧ ss.flatMap Scan.headers = [] := by
  by_cases hb : Text.isBlankText path = true
  · exact ⟨[], scans_blank order hb, rfl⟩
  rw [scans_singleton order (by simpa using hb)]
  by_cases he : tree.doesExist path = true
  · have ho : ¬ ∃ bs ms, Scan.Opens tree path bs ms := by
      rcases h with h | h | h
      · exact absurd h hb
      · simp [he] at h
      · exact h
    obtain ⟨d, -, -, hr⟩ := Scan.run_failed order he ho
    rw [hr]
    exact ⟨_, rfl, rfl⟩
  · rw [Scan.run_missing order (by simpa using he)]
    exact ⟨_, rfl, rfl⟩

theorem mappings_idle (p q : List String) (h : Idle tree path) :
    (run tree settings (p ++ path :: q)).value?.map Extraction.mappings =
      (run tree settings (p ++ q)).value?.map Extraction.mappings := by
  obtain ⟨is, hi, hn⟩ := scans_idle settings.order h
  rw [mappings_run, mappings_run, ← List.singleton_append, scans_append, scans_append, hi,
    scans_append]
  cases scans tree settings.order p with
  | none => rfl
  | some ss =>
    cases scans tree settings.order q with
    | none => rfl
    | some ss' => simp [hn]

theorem mappings_twice (p : List String) :
    (run tree settings (p ++ p)).value?.map Extraction.mappings =
      (run tree settings p).value?.map Extraction.mappings := by
  rw [mappings_run, mappings_run, scans_append]
  cases scans tree settings.order p with
  | none => rfl
  | some ss =>
    show some (mappingsOf ((ss ++ ss).flatMap Scan.headers)) = _
    rw [List.flatMap_append, mappingsOf_twice]
    rfl

/-- Extraction joins what it extracts from the parts of a list of paths: no path gives nothing,
one path gives the mappings of the headers of its scan, idle paths and paths given twice leave
the mappings as they are. -/
theorem run_homomorphic (tree : FileTree) (settings : Settings) :
    (∀ p q e, (run tree settings (p ++ q)).value? = some e ↔
      ∃ e₁ e₂, (run tree settings p).value? = some e₁ ∧
        (run tree settings q).value? = some e₂ ∧ Joins e₁ e₂ e) ∧
    (run tree settings []).value? = some ⟨[], [], .ofPaths 0 0⟩ ∧
    (∀ path, Text.isBlankText path = false → (run tree settings [path]).value? =
      (Scan.run tree settings.order path).value?.map fun scan =>
        ⟨mappingsOf scan.headers, scan.diagnostics, (Stats.ofPaths 1 0).addScan scan⟩) ∧
    (∀ p q path, Idle tree path →
      (run tree settings (p ++ path :: q)).value?.map Extraction.mappings =
        (run tree settings (p ++ q)).value?.map Extraction.mappings) ∧
    ∀ p, (run tree settings (p ++ p)).value?.map Extraction.mappings =
      (run tree settings p).value?.map Extraction.mappings := by
  refine ⟨run_append, ?_, fun path hb => run_singleton settings hb,
    fun p q path => mappings_idle p q, mappings_twice⟩
  rw [value?_run]
  rfl

end Extraction

end JarIndex
