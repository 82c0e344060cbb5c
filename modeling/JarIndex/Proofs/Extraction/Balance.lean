import JarIndex.Proofs.Extraction.Folding
import JarIndex.Proofs.Mapping.History
import JarIndex.Proofs.Scan.Accounting
import JarIndex.Proofs.Scan.Written
import Mathlib.Algebra.GroupWithZero.Nat

/-!
# The statistics of an extraction balance

Each scan enters into several counts at once: by its status, by its headers and by
the scopes of its diagnostics. The counts agree for a single scan, and folding scans
keeps them in agreement.
-/

set_option autoImplicit false

namespace JarIndex

open Archive (Member)
open ClassFile (Header)

namespace Scan

/-- How many members of the archive at a path have a local header that cannot be read. -/
def unlocated (t : FileTree) (path : String) : Nat :=
  match t.openNode path with
  | .ok (.file bs) =>
    match Archive.members bs with
    | .ok ms => ms.countP fun m => (m.dataOffset bs).toOption.isNone
    | .error _ => 0
  | _ => 0

def entriesScanned (scan : Scan) : Nat :=
  if scan.status = .scanned then scan.classEntries else 0

def entryDiagnostics (scan : Scan) : List Diagnostic :=
  scan.diagnostics.filter (·.scope = .entry)

variable {t : FileTree} {order : EntryOrder} {path : String} {bs : Bytes} {ms : List Member}
  {scan : Scan}

theorem unlocated_opens (h : Opens t path bs ms) :
    unlocated t path = ms.countP fun m => (m.dataOffset bs).toOption.isNone := by
  unfold unlocated
  simp only [h.file, h.members]

theorem unlocated_unopened (h : ¬ ∃ bs ms, Opens t path bs ms) : unlocated t path = 0 := by
  unfold unlocated
  split
  · rename_i bs hf
    split
    · rename_i ms hm
      exact absurd ⟨bs, ms, hf, hm⟩ h
    · rfl
  · rfl

theorem length_lostFrom (bs : Bytes) (n : Nat) (ms : List Member) :
    (lostFrom bs n ms).length = ms.countP fun m => (m.dataOffset bs).toOption.isNone := by
  unfold lostFrom
  induction ms generalizing n with
  | nil => rfl
  | cons m ms ih =>
    rw [List.zipIdx_cons, List.filterMap_cons, List.countP_cons]
    cases hd : m.dataOffset bs with
    | error f => simp [lost?, hd, Except.toOption, ih (n + 1)]
    | ok start => simp [lost?, hd, Except.toOption, ih (n + 1)]

theorem length_given (vs : List Visit) (h : .abort ∉ vs) :
    (vs.filterMap Visit.header?).length + (vs.filterMap Visit.diagnostic?).length = vs.length := by
  induction vs with
  | nil => rfl
  | cons v vs ih =>
    have hvs := ih fun hm => h (List.mem_cons_of_mem v hm)
    cases v with
    | abort => exact absurd List.mem_cons_self h
    | header x =>
      have hh : Visit.header? (.header x) = some x := rfl
      have hd : Visit.diagnostic? (.header x) = none := rfl
      rw [List.filterMap_cons_some hh, List.filterMap_cons_none hd, List.length_cons,
        List.length_cons]
      omega
    | diagnostic d =>
      have hh : Visit.header? (.diagnostic d) = none := rfl
      have hd : Visit.diagnostic? (.diagnostic d) = some d := rfl
      rw [List.filterMap_cons_none hh, List.filterMap_cons_some hd, List.length_cons,
        List.length_cons]
      omega

/-- The counts of a scan that agree: each diagnostic is that of a failed archive or of an entry,
and each class entry and each member without local header gives a header or a diagnostic. -/
structure Balanced (t : FileTree) (path : String) (scan : Scan) : Prop where
  diagnostics : scan.diagnostics.length =
    (if scan.status = .failed then 1 else 0) + scan.entryDiagnostics.length
  entries : scan.headers.length + scan.entryDiagnostics.length =
    scan.entriesScanned + unlocated t path

theorem balanced_ofMembers (ho : Opens t path bs ms)
    (h : (ofMembers path order bs ms).value? = some scan) : Balanced t path scan := by
  rw [value?_ofMembers] at h
  split at h
  · rename_i hv
    have hg := length_given ((visited order bs ms).map fun e => visit path bs e.1) (by
      intro hm
      obtain ⟨e, he, ha⟩ := List.mem_map.mp hm
      exact hv e he ha)
    rw [List.filterMap_map, List.filterMap_map, List.length_map] at hg
    have hall : scan.entryDiagnostics = scan.diagnostics := by
      apply List.filter_eq_self.mpr
      intro d hd
      cases h
      rcases List.mem_append.mp hd with hd | hd
      · obtain ⟨l, -, rfl⟩ := List.mem_map.mp hd
        rfl
      · obtain ⟨e, -, hd⟩ := List.mem_filterMap.mp hd
        exact decide_eq_true (visit_gives_diagnostic hd).names.1
    cases h
    constructor
    · rw [hall]
      simp
    · rw [hall, unlocated_opens ho, ← length_lostFrom bs 0 ms]
      simp only [entriesScanned, if_true, List.length_append, List.length_map]
      simp only [Function.comp_def] at hg
      omega
  · cases h

theorem run_balanced (h : (run t order path).value? = some scan) : Balanced t path scan := by
  by_cases ho : ∃ bs ms, Opens t path bs ms
  · obtain ⟨bs, ms, ho⟩ := ho
    rw [run_opens order ho] at h
    exact balanced_ofMembers ho h
  have hu := unlocated_unopened ho
  by_cases he : t.doesExist path = true
  · obtain ⟨d, hs, -, hr⟩ := run_failed order he ho
    rw [hr] at h
    cases h
    constructor <;> simp [entryDiagnostics, entriesScanned, hs, hu]
  · rw [run_missing order (by simpa using he)] at h
    cases h
    constructor <;> simp [entryDiagnostics, entriesScanned, hu]

end Scan

namespace Stats

theorem addScan_eq (s : Stats) (scan : Scan) : s.addScan scan =
    { s with
      archivesMissing := s.archivesMissing + if scan.status = .missing then 1 else 0
      archivesScanned := s.archivesScanned + if scan.status = .scanned then 1 else 0
      archivesFailed := s.archivesFailed + if scan.status = .failed then 1 else 0
      classesParsed := s.classesParsed + scan.headers.length
      classesWithSource :=
        s.classesWithSource + (scan.headers.filterMap Record.ofHeader).length
      entriesFailed := s.entriesFailed + scan.entryDiagnostics.length } := by
  have hr : (scan.headers.filterMap Record.ofHeader).length =
      (scan.headers.filter (·.sourceFile.isSome)).length := by
    rw [← List.countP_eq_length_filter, List.length_filterMap_eq_countP]
    simp [Record.ofHeader]
  rw [hr]
  cases h : scan.status <;> simp [addScan, addStatus, h, Scan.entryDiagnostics]

end Stats

/-- The books of a tally after the scans of some paths: its counts agree with each other and with
what is in its aggregator. -/
structure Tally.Balances (tree : FileTree) (paths : List String) (scans : List Scan)
    (t : Tally) : Prop where
  archives : t.stats.archivesMissing + t.stats.archivesFailed + t.stats.archivesScanned =
    paths.length
  diagnostics : t.diagnostics.length = t.stats.archivesFailed + t.stats.entriesFailed
  entries : t.stats.classesParsed + t.stats.entriesFailed =
    (scans.map Scan.entriesScanned).sum + (paths.map (Scan.unlocated tree)).sum
  sources : t.stats.classesWithSource ≤ t.stats.classesParsed
  records : ∃ rs, Reflects t.aggregator rs ∧ rs.length = t.stats.classesWithSource

namespace Tally

variable {tree : FileTree} {order : EntryOrder} {paths rest : List String} {path : String}
  {scans ss : List Scan} {scan : Scan} {t : Tally}

theorem balances_start (paths : List String) : Balances tree [] [] (Extraction.start paths) where
  archives := rfl
  diagnostics := rfl
  entries := rfl
  sources := Nat.le_refl _
  records := ⟨[], .empty, rfl⟩

theorem Balances.add (h : Balances tree paths scans t) (hb : Scan.Balanced tree path scan) :
    Balances tree (paths ++ [path]) (scans ++ [scan]) (t.add scan) where
  archives := by
    have ha := h.archives
    simp only [Tally.add, Stats.addScan_eq, List.length_append, List.length_singleton]
    cases scan.status <;> simp <;> omega
  diagnostics := by
    have hd := h.diagnostics
    have hs := hb.diagnostics
    simp only [Tally.add, Stats.addScan_eq, List.length_append]
    omega
  entries := by
    have he := h.entries
    have hs := hb.entries
    simp only [Tally.add, Stats.addScan_eq, List.map_append, List.sum_append, List.map_singleton,
      List.sum_singleton]
    omega
  sources := by
    have hs := h.sources
    have hl := List.length_filterMap_le Record.ofHeader scan.headers
    simp only [Tally.add, Stats.addScan_eq]
    omega
  records := by
    obtain ⟨rs, hr, hl⟩ := h.records
    refine ⟨_, hr.addAll scan.headers, ?_⟩
    rw [Tally.add, Stats.addScan_eq, List.length_append, hl]

theorem Balances.foldl (h : Balances tree paths scans t)
    (hs : List.Forall₂ (fun path scan => (Scan.run tree order path).value? = some scan) rest ss) :
    Balances tree (paths ++ rest) (scans ++ ss) (ss.foldl Tally.add t) := by
  induction hs generalizing paths scans t with
  | nil => simpa using h
  | @cons path scan rest ss hr _ ih =>
    have hn := ih (h.add (Scan.run_balanced hr))
    rw [List.append_assoc, List.append_assoc] at hn
    exact hn

end Tally

namespace Extraction

theorem paths_foldl_addScan (s : Stats) (ss : List Scan) :
    (ss.foldl Stats.addScan s).archivesRequested = s.archivesRequested ∧
      (ss.foldl Stats.addScan s).blankPaths = s.blankPaths := by
  induction ss generalizing s with
  | nil => exact ⟨rfl, rfl⟩
  | cons scan ss ih => simpa [Stats.addScan_eq] using ih (s.addScan scan)

theorem sum_entriesScanned (ss : List Scan) : (ss.map Scan.entriesScanned).sum =
    ((ss.filter (·.status = .scanned)).map Scan.classEntries).sum := by
  induction ss with
  | nil => rfl
  | cons scan ss ih =>
    rw [List.map_cons, List.sum_cons, ih]
    by_cases h : scan.status = .scanned <;> simp [Scan.entriesScanned, h]

/-- The counts of an extraction that ends agree with each other, with what the scans of its paths
count and with the mappings. -/
theorem statistics_balance (tree : FileTree) (settings : Settings) (paths : List String)
    (e : Extraction) (h : (run tree settings paths).value? = some e) :
    e.stats.archivesRequested = paths.length ∧
    e.stats.archivesRequested = e.stats.blankPaths + e.stats.archivesMissing +
      e.stats.archivesFailed + e.stats.archivesScanned ∧
    e.diagnostics.length = e.stats.archivesFailed + e.stats.entriesFailed ∧
    (∃ ss, scans tree settings.order paths = some ss ∧
      e.stats.classesParsed + e.stats.entriesFailed =
        ((ss.filter (·.status = .scanned)).map Scan.classEntries).sum +
          ((requested paths).map (Scan.unlocated tree)).sum) ∧
    e.stats.classesWithSource ≤ e.stats.classesParsed ∧
    (e.mappings.map fun m => m.classNames.length).sum ≤ e.stats.classesWithSource ∧
    e.mappings.length ≤ e.stats.classesWithSource ∧
    (e.mappings = [] ↔ e.stats.classesWithSource = 0) := by
  rw [value?_run] at h
  obtain ⟨ss, hs, rfl⟩ := Option.map_eq_some_iff.mp h
  have books := (Tally.balances_start paths).foldl (scans_eq_some.mp hs)
  rw [Tally.foldl_add, List.nil_append, List.nil_append] at books
  obtain ⟨hrequested, hblank⟩ := paths_foldl_addScan (start paths).stats ss
  have hle : (requested paths).length ≤ paths.length := List.length_filter_le _ paths
  obtain ⟨rs, hr, hl⟩ := books.records
  have groups : Groups rs (ofScans paths ss).mappings := hr.finish
  have hnames := groups.length_names_le
  rw [List.length_flatMap] at hnames
  have hentries := books.entries
  rw [sum_entriesScanned] at hentries
  refine ⟨hrequested, ?_, books.diagnostics, ⟨ss, hs, hentries⟩, books.sources,
    Nat.le_trans hnames (Nat.le_of_eq hl), Nat.le_trans groups.length_le (Nat.le_of_eq hl), ?_⟩
  · have ha := books.archives
    have hb : (start paths).stats.blankPaths = paths.length - (requested paths).length := rfl
    have hp : (start paths).stats.archivesRequested = paths.length := rfl
    simp only [ofScans] at *
    omega
  · rw [groups.eq_nil_iff, ← List.length_eq_zero_iff, hl]
    rfl

/-- An archive with an entry that does not decode, one with a member that has no local header and
a file that is no archive. -/
def troubledTree : FileTree :=
  (Scan.writtenTree.put ["a.jar"] (.file (0 :: Scan.sampleJar.tail))).put ["c.jar"] (.file [1, 2, 3])

def troubledPaths : List String := ["/b.jar", " ", "/a.jar", "/c.jar", "/none.jar", "/b.jar"]

theorem statistics_balance_sample : ∃ e ss,
    (run troubledTree ⟨.native, false⟩ troubledPaths).value? = some e ∧
    e.stats = ⟨6, 1, 1, 3, 1, 2, 2, 3⟩ ∧ e.diagnostics.length = 1 + 3 ∧
    scans troubledTree .native troubledPaths = some ss ∧
    2 + 3 = ((ss.filter (·.status = .scanned)).map Scan.classEntries).sum +
      ((requested troubledPaths).map (Scan.unlocated troubledTree)).sum ∧
    (e.mappings.map fun m => m.classNames.length).sum ≤ 2 := by
  have hs : (run troubledTree ⟨.native, false⟩ troubledPaths).value?.map Extraction.stats =
      some ⟨6, 1, 1, 3, 1, 2, 2, 3⟩ := by decide +kernel
  obtain ⟨e, he, hstats⟩ := Option.map_eq_some_iff.mp hs
  obtain ⟨-, -, hd, ⟨ss, hss, hentries⟩, -, hnames, -, -⟩ :=
    statistics_balance troubledTree ⟨.native, false⟩ troubledPaths e he
  rw [hstats] at hd hentries hnames
  exact ⟨e, ss, he, hstats, hd, hss, hentries, hnames⟩

end Extraction

end JarIndex
