import JarIndex.Extraction
import JarIndex.Proofs.Schedule
import Mathlib.Data.List.Forall2

/-!
# An extraction as a fold over scans

The value of an extraction depends on the values of the scans of its paths, in
their order, and not on whether they are made side by side. Each part of the
result is additive in the list of the scans.
-/

set_option autoImplicit false

namespace JarIndex

open ClassFile (Header)

namespace Stats

instance : Add Stats where
  add a b := ⟨a.archivesRequested + b.archivesRequested, a.blankPaths + b.blankPaths,
    a.archivesMissing + b.archivesMissing, a.archivesScanned + b.archivesScanned,
    a.archivesFailed + b.archivesFailed, a.classesParsed + b.classesParsed,
    a.classesWithSource + b.classesWithSource, a.entriesFailed + b.entriesFailed⟩

theorem add_def (a b : Stats) : a + b =
    ⟨a.archivesRequested + b.archivesRequested, a.blankPaths + b.blankPaths,
      a.archivesMissing + b.archivesMissing, a.archivesScanned + b.archivesScanned,
      a.archivesFailed + b.archivesFailed, a.classesParsed + b.classesParsed,
      a.classesWithSource + b.classesWithSource, a.entriesFailed + b.entriesFailed⟩ := rfl

theorem add_comm (a b : Stats) : a + b = b + a := by
  simp only [add_def, Nat.add_comm]

theorem ofPaths_add (m n k l : Nat) : ofPaths (m + n) (k + l) = ofPaths m k + ofPaths n l := rfl

theorem addScan_add (a b : Stats) (scan : Scan) : (a + b).addScan scan = a + b.addScan scan := by
  cases hs : scan.status <;> simp [addScan, addStatus, add_def, hs, Nat.add_assoc]

theorem foldl_addScan_add (a b : Stats) (scans : List Scan) :
    scans.foldl addScan (a + b) = a + scans.foldl addScan b := by
  induction scans generalizing b with
  | nil => rfl
  | cons scan scans ih =>
    rw [List.foldl_cons, List.foldl_cons, addScan_add, ih]

end Stats

theorem Aggregator.addAll_append (a : Aggregator) (hs hs' : List Header) :
    a.addAll (hs ++ hs') = (a.addAll hs).addAll hs' := by
  induction hs generalizing a with
  | nil => rfl
  | cons h hs ih => exact ih _

theorem Tally.foldl_add (t : Tally) (scans : List Scan) : scans.foldl Tally.add t =
    ⟨t.aggregator.addAll (scans.flatMap Scan.headers),
      t.diagnostics ++ scans.flatMap Scan.diagnostics, scans.foldl Stats.addScan t.stats⟩ := by
  induction scans generalizing t with
  | nil => simp [Aggregator.addAll]
  | cons scan scans ih =>
    rw [List.foldl_cons, ih]
    simp [add, Aggregator.addAll_append]

namespace Extraction

/-- The values of the scans of the paths that are not blank. -/
def scans (tree : FileTree) (order : EntryOrder) (paths : List String) : Option (List Scan) :=
  (requested paths).mapM fun path => (Scan.run tree order path).value?

/-- What an extraction of some paths gives whose scans are these. -/
def ofScans (paths : List String) (scans : List Scan) : Extraction where
  mappings := (Aggregator.empty.addAll (scans.flatMap Scan.headers)).finish
  diagnostics := scans.flatMap Scan.diagnostics
  stats := scans.foldl Stats.addScan (start paths).stats

theorem scans_eq_some {tree : FileTree} {order : EntryOrder} {paths : List String}
    {ss : List Scan} : scans tree order paths = some ss ↔
      List.Forall₂ (fun path scan => (Scan.run tree order path).value? = some scan)
        (requested paths) ss := by
  unfold scans
  induction requested paths generalizing ss with
  | nil => simp [eq_comm]
  | cons path rest ih =>
    rw [List.mapM_cons, List.forall₂_cons_left_iff]
    constructor
    · intro h
      obtain ⟨scan, hs, h⟩ := Option.bind_eq_some_iff.mp h
      obtain ⟨rest', hr, h⟩ := Option.bind_eq_some_iff.mp h
      cases h
      exact ⟨scan, rest', hs, ih.mp hr, rfl⟩
    · intro h
      obtain ⟨scan, rest', hs, hr, rfl⟩ := h
      rw [hs, ih.mpr hr]
      rfl

theorem mem_scans {tree : FileTree} {order : EntryOrder} {paths : List String} {ss : List Scan}
    (h : scans tree order paths = some ss) {scan : Scan} :
    scan ∈ ss ↔ ∃ path ∈ requested paths, (Scan.run tree order path).value? = some scan := by
  have hf := scans_eq_some.mp h
  clear h
  generalize requested paths = rest at hf
  induction hf with
  | nil => simp
  | cons hr _ ih =>
    rw [List.mem_cons, List.exists_mem_cons_iff, hr, Option.some_inj, eq_comm]
    exact or_congr_right ih

theorem scan_of_mem {tree : FileTree} {order : EntryOrder} {paths : List String} {ss : List Scan}
    {path : String} (h : scans tree order paths = some ss) (hp : path ∈ requested paths) :
    ∃ scan ∈ ss, (Scan.run tree order path).value? = some scan := by
  have hf := scans_eq_some.mp h
  clear h
  generalize requested paths = rest at hf hp
  induction hf with
  | nil => cases hp
  | cons hr _ ih =>
    rcases List.mem_cons.mp hp with rfl | hp
    · exact ⟨_, List.mem_cons_self, hr⟩
    · obtain ⟨scan, hs, hr⟩ := ih hp
      exact ⟨scan, List.mem_cons_of_mem _ hs, hr⟩

theorem value?_sequential (tree : FileTree) (order : EntryOrder) (t : Tally)
    (paths : List String) : (sequential tree order t paths).value? =
      (paths.mapM fun path => (Scan.run tree order path).value?).map (·.foldl Tally.add t) := by
  induction paths generalizing t with
  | nil => rfl
  | cons path paths ih =>
    rw [sequential, Run.value?_bind, List.mapM_cons]
    cases (Scan.run tree order path).value? with
    | none => rfl
    | some scan =>
      rw [Option.bind_some, ih]
      cases paths.mapM fun path => (Scan.run tree order path).value? <;> rfl

theorem value?_concurrent (tree : FileTree) (order : EntryOrder) (completion : List Nat)
    (t : Tally) (paths : List String) (h : ∀ i < paths.length, i ∈ completion) :
    (concurrent tree order completion t paths).value? =
      (paths.mapM fun path => (Scan.run tree order path).value?).map (·.foldl Tally.add t) := by
  have hc : ∀ i < (paths.map (Scan.run tree order)).length, i ∈ completion := by simpa using h
  unfold concurrent
  rw [Run.value?_bind, Schedule.value?_run _ _ hc, List.mapM_map]
  show Option.bind (paths.mapM fun path => (Scan.run tree order path).value?) _ = _
  cases paths.mapM fun path => (Scan.run tree order path).value? <;> rfl

theorem value?_conclude (paths : List String) (ss : List Scan) :
    (conclude (ss.foldl Tally.add (start paths))).value? = some (ofScans paths ss) := by
  rw [Tally.foldl_add]
  rfl

theorem value?_bind_conclude {tree : FileTree} {order : EntryOrder} {paths : List String}
    {r : Run Tally}
    (h : r.value? = (scans tree order paths).map (·.foldl Tally.add (start paths))) :
    (r >>= conclude).value? = (scans tree order paths).map (ofScans paths) := by
  rw [Run.value?_bind, h]
  cases scans tree order paths with
  | none => rfl
  | some ss => exact value?_conclude paths ss

theorem value?_run (tree : FileTree) (settings : Settings) (paths : List String) :
    (run tree settings paths).value? = (scans tree settings.order paths).map (ofScans paths) := by
  show (if settings.parallel then
      concurrent tree settings.order (List.range (requested paths).length) (start paths)
        (requested paths) >>= conclude
    else sequential tree settings.order (start paths) (requested paths) >>= conclude).value? = _
  by_cases hp : settings.parallel
  · rw [if_pos hp]
    apply value?_bind_conclude
    apply value?_concurrent
    intro i hi
    exact List.mem_range.mpr hi
  · rw [if_neg hp]
    apply value?_bind_conclude
    apply value?_sequential

theorem requested_append (p q : List String) :
    requested (p ++ q) = requested p ++ requested q := by
  simp [requested]

theorem scans_append (tree : FileTree) (order : EntryOrder) (p q : List String) :
    scans tree order (p ++ q) = (scans tree order p).bind fun ss =>
      (scans tree order q).map (ss ++ ·) := by
  unfold scans
  rw [requested_append, List.mapM_append]
  cases (requested p).mapM fun path => (Scan.run tree order path).value? with
  | none => rfl
  | some ss =>
    cases (requested q).mapM fun path => (Scan.run tree order path).value? <;> rfl

theorem stats_start_append (p q : List String) :
    (start (p ++ q)).stats = (start p).stats + (start q).stats := by
  have hp : (requested p).length ≤ p.length := List.length_filter_le _ p
  have hq : (requested q).length ≤ q.length := List.length_filter_le _ q
  have hb : (p ++ q).length - (requested (p ++ q)).length =
      (p.length - (requested p).length) + (q.length - (requested q).length) := by
    rw [requested_append, List.length_append, List.length_append]
    omega
  show Stats.ofPaths _ _ = _
  rw [hb, List.length_append, Stats.ofPaths_add]
  rfl

theorem stats_ofScans_append (p q : List String) (ss ss' : List Scan) :
    (ofScans (p ++ q) (ss ++ ss')).stats = (ofScans p ss).stats + (ofScans q ss').stats := by
  show (ss ++ ss').foldl Stats.addScan (start (p ++ q)).stats = _
  rw [List.foldl_append, stats_start_append, Stats.add_comm, Stats.foldl_addScan_add,
    Stats.add_comm, Stats.foldl_addScan_add]
  rfl

theorem diagnostics_ofScans_append (p q : List String) (ss ss' : List Scan) :
    (ofScans (p ++ q) (ss ++ ss')).diagnostics =
      (ofScans p ss).diagnostics ++ (ofScans q ss').diagnostics := by
  simp [ofScans]

end Extraction

end JarIndex
