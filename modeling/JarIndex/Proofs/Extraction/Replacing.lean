import JarIndex.Proofs.Extraction.Append
import JarIndex.Proofs.Scan.Written

/-!
# Replacing archives

An archive that takes the place of one with the same members changes neither the
mappings nor the statistics of a canonical extraction, and the diagnostics only in
the paths that they name.
-/

set_option autoImplicit false

namespace JarIndex

open Archive (Member Packed membersOf written)
open Scan (Opens SameMembers)

theorem Scan.run_congr {t t' : FileTree} {path : String} (h : t.node path = t'.node path)
    (order : EntryOrder) : Scan.run t order path = Scan.run t' order path := by
  unfold Scan.run FileTree.doesExist FileTree.openNode
  rw [h]

theorem Stats.addScan_moveTo (s : Stats) (path : String) (scan : Scan) :
    s.addScan (scan.moveTo path) = s.addScan scan := by
  have hd : ((scan.diagnostics.map (Diagnostic.moveTo path)).filter (·.scope = .entry)).length =
      (scan.diagnostics.filter (·.scope = .entry)).length := by
    rw [List.filter_map, List.length_map]
    simp only [Function.comp_def, Diagnostic.scope_moveTo]
  unfold addScan Scan.moveTo
  rw [hd]

namespace Extraction

def moveTo (path : String) (e : Extraction) : Extraction :=
  { e with diagnostics := e.diagnostics.map (Diagnostic.moveTo path) }

/-- That a path leads to the same in two trees, or that an archive takes the place of one with
the same members. Both are scanned, or both are blank. -/
inductive Replaces (t t' : FileTree) : String → String → Prop where
  | same {path : String} (node : t.node path = t'.node path) : Replaces t t' path path
  | archive {path path' : String} {bs bs' : Bytes} {ms ms' : List Member}
      (blank : Text.isBlankText path = Text.isBlankText path') (opens : Opens t path bs ms)
      (opens' : Opens t' path' bs' ms') (members : SameMembers bs ms bs' ms') :
      Replaces t t' path path'

variable {t t' : FileTree} {path path' : String} {paths paths' : List String}

theorem Replaces.blank_eq (h : Replaces t t' path path') :
    Text.isBlankText path = Text.isBlankText path' := by
  cases h with
  | same => rfl
  | archive blank => exact blank

theorem Replaces.run_eq (h : Replaces t t' path path') (place : String) :
    (Scan.run t' .canonical path').value?.map (Scan.moveTo place) =
      (Scan.run t .canonical path).value?.map (Scan.moveTo place) := by
  cases h with
  | same node => rw [Scan.run_congr node]
  | archive _ opens opens' members =>
    rw [Scan.run_moved opens opens' members, Option.map_map]
    congr 1
    funext scan
    simp

theorem scans_cons (tree : FileTree) (order : EntryOrder) (path : String) (paths : List String) :
    scans tree order (path :: paths) =
      if Text.isBlankText path then scans tree order paths
      else (Scan.run tree order path).value?.bind fun scan =>
        (scans tree order paths).map (scan :: ·) := by
  rw [← List.singleton_append, scans_append]
  by_cases hb : Text.isBlankText path
  · rw [if_pos hb, scans_blank order hb]
    simp
  · rw [if_neg hb, scans_singleton order (by simpa using hb)]
    cases (Scan.run tree order path).value? <;> rfl

theorem scans_replaced (h : List.Forall₂ (Replaces t t') paths paths') (place : String) :
    (scans t' .canonical paths').map (List.map (Scan.moveTo place)) =
      (scans t .canonical paths).map (List.map (Scan.moveTo place)) := by
  have apart : ∀ (first : Option Scan) (rest : Option (List Scan)),
      (first.bind fun scan => rest.map (scan :: ·)).map (List.map (Scan.moveTo place)) =
        (first.map (Scan.moveTo place)).bind fun scan =>
          (rest.map (List.map (Scan.moveTo place))).map (scan :: ·) := by
    intro first rest
    cases first <;> cases rest <;> rfl
  induction h with
  | nil => rfl
  | cons hr _ ih =>
    rw [scans_cons, scans_cons, hr.blank_eq]
    split
    · exact ih
    · rw [apart, apart, hr.run_eq place, ih]

theorem requested_replaced (h : List.Forall₂ (Replaces t t') paths paths') :
    (requested paths').length = (requested paths).length := by
  induction h with
  | nil => rfl
  | @cons path path' _ _ hr _ ih =>
    have hb := hr.blank_eq
    unfold requested at *
    rw [List.filter_cons, List.filter_cons, hb]
    split <;> simp [ih]

theorem start_replaced (h : List.Forall₂ (Replaces t t') paths paths') :
    start paths' = start paths := by
  unfold start
  rw [requested_replaced h, h.length_eq]

theorem ofScans_moveTo (paths : List String) (ss : List Scan) (place : String) :
    ofScans paths (ss.map (Scan.moveTo place)) = (ofScans paths ss).moveTo place := by
  have hs : (ss.map (Scan.moveTo place)).foldl Stats.addScan (start paths).stats =
      ss.foldl Stats.addScan (start paths).stats := by
    rw [List.foldl_map]
    simp only [Stats.addScan_moveTo]
  unfold ofScans moveTo
  rw [hs, List.flatMap_map, List.flatMap_map, List.map_flatMap]
  rfl

theorem run_replaced (h : List.Forall₂ (Replaces t t') paths paths') (parallel parallel' : Bool)
    (place : String) : (run t' ⟨.canonical, parallel'⟩ paths').value?.map (moveTo place) =
      (run t ⟨.canonical, parallel⟩ paths).value?.map (moveTo place) := by
  have moved : ∀ ps : List String, moveTo place ∘ ofScans ps =
      ofScans ps ∘ List.map (Scan.moveTo place) := by
    intro ps
    funext ss
    exact (ofScans_moveTo ps ss place).symm
  have same : ofScans paths' = ofScans paths := by
    unfold ofScans
    rw [start_replaced h]
  rw [value?_run, value?_run, Option.map_map, Option.map_map, moved, moved, ← Option.map_map,
    ← Option.map_map, scans_replaced h, same]

/-- Canonical scans of two archives with the same members give the same headers, the same number
of class entries and, but for the path, the same diagnostics, each in the same order. Such
archives can take each other's places in a list of paths, in either mode, without a change of
the mappings or the statistics. -/
theorem member_order_immaterial :
    (∀ t t' path path' bs bs' ms ms', Opens t path bs ms → Opens t' path' bs' ms' →
      SameMembers bs ms bs' ms' → (Scan.run t' .canonical path').value? =
        (Scan.run t .canonical path).value?.map (Scan.moveTo path')) ∧
    ∀ t t' paths paths' parallel parallel', List.Forall₂ (Replaces t t') paths paths' →
      (run t' ⟨.canonical, parallel'⟩ paths').value?.map (fun e => (e.mappings, e.stats)) =
        (run t ⟨.canonical, parallel⟩ paths).value?.map fun e => (e.mappings, e.stats) := by
  constructor
  · intro t t' path path' bs bs' ms ms' ho ho' h
    exact Scan.run_moved ho ho' h
  · intro t t' paths paths' parallel parallel' h
    have hr := congrArg (Option.map fun e => (e.mappings, e.stats))
      (run_replaced h parallel parallel' "")
    rw [Option.map_map, Option.map_map] at hr
    exact hr

/-- Two classes of one source file that are in different packages. -/
def conflicting : List Packed :=
  [Scan.classEntry "P.class" "p/A" "S.java" (by decide),
    Scan.classEntry "Q.class" "q/B" "S.java" (by decide)]

def conflictingTree (ps : List Packed) : FileTree :=
  (FileTree.empty []).put ["c.jar"] (.file (written [] ps))

/-- The order of the members, which decides on the package of a native extraction, leaves that
of a canonical one as it is. -/
theorem member_order_immaterial_sample :
    SameMembers (written [] conflicting) (membersOf [] conflicting)
      (written [] conflicting.reverse) (membersOf [] conflicting.reverse) ∧
    (run (conflictingTree conflicting.reverse) ⟨.canonical, true⟩ ["/c.jar"]).value?.map
      (fun e => (e.mappings, e.stats)) =
        (run (conflictingTree conflicting) ⟨.canonical, false⟩ ["/c.jar"]).value?.map
          (fun e => (e.mappings, e.stats)) ∧
    (run (conflictingTree conflicting) ⟨.canonical, false⟩ ["/c.jar"]).value?.map
      (fun e => e.mappings) = some [⟨"S.java", ["p.A", "q.B"], "q"⟩] ∧
    (run (conflictingTree conflicting.reverse) ⟨.native, false⟩ ["/c.jar"]).value?.map
      (fun e => e.mappings) = some [⟨"S.java", ["p.A", "q.B"], "p"⟩] := by
  have opens : Opens (conflictingTree conflicting) "/c.jar" _ (membersOf [] conflicting) :=
    Scan.opens_written (by decide +kernel) (by decide +kernel)
  have opens' : Opens (conflictingTree conflicting.reverse) "/c.jar" _
      (membersOf [] conflicting.reverse) :=
    Scan.opens_written (by decide +kernel) (by decide +kernel)
  have sorted : (run (conflictingTree conflicting) ⟨.canonical, false⟩ ["/c.jar"]).value? =
      (run (conflictingTree conflicting) ⟨.native, false⟩ ["/c.jar"]).value? := by
    rw [value?_run, value?_run, scans_singleton _ rfl, scans_singleton _ rfl,
      Scan.run_sorted .canonical opens (Scan.located_written _ _) (by decide +kernel)]
  have same := Scan.sameMembers_written [] [] conflicting.reverse_perm.symm (by decide +kernel)
  refine ⟨same, ?_, by rw [sorted]; decide +kernel, by decide +kernel⟩
  exact member_order_immaterial.2 _ _ _ _ false true (.cons (.archive rfl opens opens' same) .nil)

end Extraction

end JarIndex
