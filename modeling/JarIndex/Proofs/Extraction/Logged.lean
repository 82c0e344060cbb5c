import JarIndex.Proofs.Extraction.Balance
import JarIndex.Proofs.Scan.Logged

/-!
# What an extraction logs

A run that scans one archive after another logs what its scans log, in the order of the
paths, and ends with the numbers of its result. So its warnings are its diagnostics.
-/

set_option autoImplicit false

namespace JarIndex

namespace Extraction

def concludedEvent (mappings archivesScanned diagnostics : Nat) : Event :=
  ⟨.info, .extract, "extracted " ++ toString mappings ++ " source mappings from " ++
    toString archivesScanned ++ " archives (" ++ toString diagnostics ++ " diagnostics)"⟩

/-- That a path is scanned with some result, of which some events tell. -/
structure Logged (tree : FileTree) (order : EntryOrder) (path : String) (scan : Scan)
    (events : List Event) : Prop where
  ends : (Scan.run tree order path).value? = some scan
  logs : Scan.Logs path scan events

variable {tree : FileTree} {order : EntryOrder} {paths : List String} {ss : List Scan} {t : Tally}

theorem events_sequential
    (h : List.Forall₂ (fun path scan => (Scan.run tree order path).value? = some scan) paths ss) :
    (sequential tree order t paths).events =
      paths.flatMap fun path => (Scan.run tree order path).events := by
  induction h generalizing t with
  | nil => rfl
  | cons hr _ ih => rw [sequential, Run.events_bind hr, ih, List.flatMap_cons]

theorem events_conclude (paths : List String) (ss : List Scan) :
    (conclude (ss.foldl Tally.add (start paths))).events =
      [concludedEvent (ofScans paths ss).mappings.length (ofScans paths ss).stats.archivesScanned
        (ofScans paths ss).diagnostics.length] := by
  have hm : (ofScans paths ss).mappings.length =
      (Aggregator.empty.addAll (ss.flatMap Scan.headers)).size := List.length_map _
  rw [Tally.foldl_add, hm]
  rfl

theorem events_run (h : scans tree order paths = some ss) :
    (run tree ⟨order, false⟩ paths).events =
      ((requested paths).flatMap fun path => (Scan.run tree order path).events) ++
        [concludedEvent (ofScans paths ss).mappings.length
          (ofScans paths ss).stats.archivesScanned (ofScans paths ss).diagnostics.length] := by
  have hv := value?_sequential tree order (start paths) (requested paths)
  rw [show (requested paths).mapM _ = some ss from h] at hv
  have hr : run tree ⟨order, false⟩ paths =
      sequential tree order (start paths) (requested paths) >>= conclude := rfl
  rw [hr, Run.events_bind hv, events_sequential (scans_eq_some.mp h), events_conclude]

theorem exists_logged
    (h : List.Forall₂ (fun path scan => (Scan.run tree order path).value? = some scan) paths ss) :
    ∃ logs : List (Scan × List Event), logs.map Prod.fst = ss ∧
      List.Forall₂ (fun path log => Logged tree order path log.1 log.2) paths logs ∧
      paths.flatMap (fun path => (Scan.run tree order path).events) = logs.flatMap Prod.snd := by
  induction h with
  | nil => exact ⟨[], rfl, .nil, rfl⟩
  | @cons path scan _ _ hr _ ih =>
    obtain ⟨logs, hs, logged, he⟩ := ih
    refine ⟨(scan, (Scan.run tree order path).events) :: logs, ?_,
      .cons ⟨hr, Scan.run_logs hr⟩ logged, ?_⟩
    · rw [List.map_cons, hs]
    · rw [List.flatMap_cons, List.flatMap_cons, he]

theorem warnings_logged {logs : List (Scan × List Event)}
    (h : List.Forall₂ (fun path log => Logged tree order path log.1 log.2) paths logs) :
    warnings (logs.flatMap Prod.snd) =
      (logs.flatMap fun log => log.1.diagnostics).map Diagnostic.message := by
  induction h with
  | nil => rfl
  | cons logged _ ih =>
    rw [List.flatMap_cons, List.flatMap_cons, warnings_append, List.map_append, ih,
      logged.logs.warnings]

/-- A sequential run that ends logs, for each path that is not blank and in their order, what came
of its scan, and then the numbers of its result; it warns of its diagnostics, each once and in
their order. -/
theorem log_tells_result (tree : FileTree) (order : EntryOrder) (paths : List String)
    (e : Extraction) (h : (run tree ⟨order, false⟩ paths).value? = some e) :
    ∃ logs : List (Scan × List Event),
      List.Forall₂ (fun path log => Logged tree order path log.1 log.2)
        (paths.filter (!Text.isBlankText ·)) logs ∧
      e = ofScans paths (logs.map Prod.fst) ∧
      (run tree ⟨order, false⟩ paths).events = logs.flatMap Prod.snd ++
        [concludedEvent e.mappings.length e.stats.archivesScanned e.diagnostics.length] ∧
      warnings (run tree ⟨order, false⟩ paths).events = e.diagnostics.map Diagnostic.message := by
  rw [value?_run] at h
  obtain ⟨ss, hss, rfl⟩ := Option.map_eq_some_iff.mp h
  obtain ⟨logs, rfl, logged, hevents⟩ := exists_logged (scans_eq_some.mp hss)
  have hdiagnostics : (ofScans paths (logs.map Prod.fst)).diagnostics =
      logs.flatMap fun log => log.1.diagnostics := List.flatMap_map _ _ _
  have hall := events_run hss
  rw [hevents] at hall
  refine ⟨logs, logged, rfl, hall, ?_⟩
  rw [hall, warnings_append, warnings_logged logged, hdiagnostics]
  exact List.append_nil _

theorem log_tells_result_sample : ∃ e,
    (run troubledTree ⟨.native, false⟩ troubledPaths).value? = some e ∧ e.diagnostics.length = 4 ∧
    (run troubledTree ⟨.native, false⟩ troubledPaths).events.map Event.level =
      [.warn, .debug, .warn, .debug, .warn, .debug, .warn, .debug, .info] ∧
    warnings (run troubledTree ⟨.native, false⟩ troubledPaths).events =
      e.diagnostics.map Diagnostic.message := by
  have hd : (run troubledTree ⟨.native, false⟩ troubledPaths).value?.map
      (fun e => e.diagnostics.length) = some 4 := by decide +kernel
  obtain ⟨e, he, hlength⟩ := Option.map_eq_some_iff.mp hd
  obtain ⟨-, -, -, -, hwarnings⟩ := log_tells_result troubledTree .native troubledPaths e he
  exact ⟨e, he, hlength, by decide +kernel, hwarnings⟩

end Extraction

end JarIndex
