import JarIndex.Mapping.Aggregator
import JarIndex.Schedule
import JarIndex.Settings

/-!
# Extracting mappings from many archives

Blank paths are dropped; each other path is scanned, and the scans are folded in
the order of the paths, whether they were made one after another or side by side.
-/

set_option autoImplicit false

namespace JarIndex

structure Stats where
  archivesRequested : Nat
  blankPaths : Nat
  archivesMissing : Nat
  archivesScanned : Nat
  archivesFailed : Nat
  classesParsed : Nat
  classesWithSource : Nat
  entriesFailed : Nat
  deriving DecidableEq, Repr

structure Extraction where
  mappings : List Mapping
  diagnostics : List Diagnostic
  stats : Stats
  deriving DecidableEq, Repr

structure Tally where
  aggregator : Aggregator
  diagnostics : List Diagnostic
  stats : Stats
  deriving DecidableEq, Repr

namespace Stats

def ofPaths (requested blank : Nat) : Stats := ⟨requested, blank, 0, 0, 0, 0, 0, 0⟩

def addStatus (s : Stats) : ScanStatus → Stats
  | .missing => { s with archivesMissing := s.archivesMissing + 1 }
  | .failed => { s with archivesFailed := s.archivesFailed + 1 }
  | .scanned => { s with archivesScanned := s.archivesScanned + 1 }

def addScan (s : Stats) (scan : Scan) : Stats :=
  let s := s.addStatus scan.status
  { s with
    classesParsed := s.classesParsed + scan.headers.length
    classesWithSource :=
      s.classesWithSource + (scan.headers.filter (·.sourceFile.isSome)).length
    entriesFailed :=
      s.entriesFailed + (scan.diagnostics.filter (·.scope = .entry)).length }

end Stats

namespace Tally

def add (t : Tally) (scan : Scan) : Tally where
  aggregator := t.aggregator.addAll scan.headers
  diagnostics := t.diagnostics ++ scan.diagnostics
  stats := t.stats.addScan scan

def message (t : Tally) : String :=
  "extracted " ++ toString t.aggregator.size ++ " source mappings from " ++
    toString t.stats.archivesScanned ++ " archives (" ++ toString t.diagnostics.length ++
    " diagnostics)"

end Tally

namespace Extraction

def requested (paths : List String) : List String := paths.filter (!Text.isBlankText ·)

def start (paths : List String) : Tally :=
  ⟨Aggregator.empty, [], .ofPaths paths.length (paths.length - (requested paths).length)⟩

def conclude (t : Tally) : Run Extraction := do
  .log ⟨.info, .extract, t.message⟩
  return ⟨t.aggregator.finish, t.diagnostics, t.stats⟩

def sequential (tree : FileTree) (order : EntryOrder) : Tally → List String → Run Tally
  | t, [] => pure t
  | t, path :: paths => do
    let scan ← Scan.run tree order path
    sequential tree order (t.add scan) paths

/-- Scans side by side, completed in the order of the given task numbers. -/
def concurrent (tree : FileTree) (order : EntryOrder) (completion : List Nat) (t : Tally)
    (paths : List String) : Run Tally := do
  let scans ← Schedule.run (paths.map (Scan.run tree order)) completion
  return scans.foldl Tally.add t

def run (tree : FileTree) (settings : Settings) (paths : List String) : Run Extraction := do
  let archives := requested paths
  let t ← if settings.parallel then
      concurrent tree settings.order (List.range archives.length) (start paths) archives
    else sequential tree settings.order (start paths) archives
  conclude t

/-- The mappings, unless something could not be read; then the first diagnostic. -/
def strict (e : Extraction) : Except Diagnostic (List Mapping) :=
  match e.diagnostics with
  | [] => .ok e.mappings
  | d :: _ => .error d

end Extraction

end JarIndex
