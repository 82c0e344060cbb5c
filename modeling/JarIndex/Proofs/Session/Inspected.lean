import JarIndex.Proofs.Extraction.Append
import JarIndex.Proofs.Scan.Accounting
import JarIndex.Proofs.Scan.Written
import JarIndex.Session

/-!
# Inspecting a file and extracting from it

An inspection of an archive and an extraction of it alone tell the same: that there is
nothing at the path, or the same diagnostics and the classes whose mappings these are.
An inspected class file gives what a class entry with the same content gives in a scan.
-/

set_option autoImplicit false

namespace JarIndex

open Archive (Member Readable)
open ClassFile (DecodeError Header)

namespace Scan

section Visits
variable {path : String} {bs data : Bytes} {m : Member}

theorem visit_eq_header (hr : Readable bs m data) {h : Header} :
    visit path bs m = .header h ↔ ClassFile.parse data = .ok h := by
  unfold visit
  rw [Member.content_eq_ok.mpr hr]
  dsimp only
  cases ClassFile.parse data <;> simp

theorem visit_eq_undecoded (hr : Readable bs m data) {e : DecodeError} :
    visit path bs m = .diagnostic (.undecoded path m.name e) ↔ ClassFile.parse data = .error e := by
  unfold visit
  rw [Member.content_eq_ok.mpr hr]
  dsimp only
  cases ClassFile.parse data <;> simp

theorem Visit.ext_parts {v w : Visit} (hh : v.header?.toList = w.header?.toList)
    (hd : v.diagnostic?.toList = w.diagnostic?.toList) : v = w := by
  cases v <;> cases w <;> simp_all [Visit.header?, Visit.diagnostic?]

end Visits

def headersOf (path : String) (bs : Bytes) (es : List Entry) : List Header :=
  es.filterMap fun e => (visit path bs e.1).header?

def diagnosticsOf (path : String) (bs : Bytes) (es : List Entry) : List Diagnostic :=
  es.filterMap fun e => (visit path bs e.1).diagnostic?

variable {path : String} {order : EntryOrder} {bs : Bytes} {ms : List Member} {m : Member} {i : Nat}
  {before after : List Entry} {scan : Scan}

/-- That a scan has something between what the entries visited before and those visited after
give. -/
structure HasBetween (l : Ledger path order bs ms) (before after : List Entry) (scan : Scan)
    (v : Visit) : Prop where
  headers : scan.headers =
    headersOf path bs before ++ (v.header?.toList ++ headersOf path bs after)
  diagnostics : scan.diagnostics = l.lost.map (unlisted path) ++
    (diagnosticsOf path bs before ++ (v.diagnostic?.toList ++ diagnosticsOf path bs after))

theorem hasBetween_iff {l : Ledger path order bs ms} (hl : l.visits = before ++ (m, i) :: after)
    (hh : scan.headers = l.headers) (hd : scan.diagnostics = l.diagnostics) {v : Visit} :
    HasBetween l before after scan v ↔ visit path bs m = v := by
  have headers : l.headers = headersOf path bs before ++
      ((visit path bs m).header?.toList ++ headersOf path bs after) := by
    unfold Ledger.headers headersOf
    rw [hl, List.filterMap_append, List.filterMap_cons]
    cases (visit path bs m).header? <;> rfl
  have diagnostics : l.diagnostics = l.lost.map (unlisted path) ++ (diagnosticsOf path bs before ++
      ((visit path bs m).diagnostic?.toList ++ diagnosticsOf path bs after)) := by
    unfold Ledger.diagnostics diagnosticsOf
    rw [hl, List.filterMap_append, List.filterMap_cons]
    cases (visit path bs m).diagnostic? <;> rfl
  constructor
  · intro h
    have h₁ := hh.symm.trans h.headers
    have h₂ := hd.symm.trans h.diagnostics
    rw [headers] at h₁
    rw [diagnostics] at h₂
    simp only [List.append_cancel_left_eq, List.append_cancel_right_eq] at h₁ h₂
    exact Visit.ext_parts h₁ h₂
  · rintro rfl
    exact ⟨hh.trans headers, hd.trans diagnostics⟩

end Scan

namespace Inspection

open Scan (Entry HasBetween Ledger Opens classBytes writtenEntries writtenTree)

variable {t : FileTree} {path : String} {data : Bytes}

theorem value?_class (h : Path.extension path = some classExtension) :
    (run t path).value? = some (ofClass t path) := by
  unfold run
  rw [if_pos h]
  rfl

theorem value?_scan (h : Path.extension path ≠ some classExtension) :
    (run t path).value? = (Scan.run t .canonical path).value?.map ofScan := by
  unfold run
  rw [if_neg h, Run.value?_bind]
  cases (Scan.run t .canonical path).value? <;> rfl

theorem ofClass_eq_ok (hr : t.read path = .ok data) {h : Header} :
    ofClass t path = .ok ⟨path, [h], []⟩ ↔ ClassFile.parse data = .ok h := by
  unfold ofClass
  rw [hr]
  dsimp only
  cases ClassFile.parse data <;> simp

theorem ofClass_eq_error (hr : t.read path = .ok data) {e : DecodeError} :
    ofClass t path = .error (.classDecode path e) ↔ ClassFile.parse data = .error e := by
  unfold ofClass
  rw [hr]
  dsimp only
  cases ClassFile.parse data <;> simp

structure Tells (path : String) (i : Inspection) (e : Extraction) : Prop where
  path : i.path = path
  diagnostics : i.diagnostics = e.diagnostics.map Diagnostic.message
  classes : i.classes.length = e.stats.classesParsed
  mappings : (Aggregator.empty.addAll i.classes).finish = e.mappings

theorem tells_of_scan {scan : Scan} (h : (Scan.run t .canonical path).value? = some scan)
    (he : t.doesExist path = true) : ∃ i, ofScan scan = .ok i ∧ Tells path i
      ⟨Extraction.mappingsOf scan.headers, scan.diagnostics, (Stats.ofPaths 1 0).addScan scan⟩ := by
  have hs : scan.status ≠ .missing := by
    intro hs
    rw [(Scan.accounted_of_value h).missing_iff.mp hs] at he
    cases he
  refine ⟨⟨scan.path, scan.headers, scan.diagnostics.map Diagnostic.message⟩, ?_,
    Scan.run_path h, rfl, ?_, rfl⟩
  · unfold ofScan
    split
    · exact absurd ‹_› hs
    · rfl
  · cases hs : scan.status <;> simp [Stats.addScan, Stats.addStatus, Stats.ofPaths, hs]

/-- Where a scan of a path ends, an inspection of it and an extraction of it alone tell the same;
and a class file that is inspected gives what an entry of a scanned archive with the same content
gives in its place. -/
theorem agrees_with_extraction :
    (∀ t path parallel scan, Text.isBlankText path = false →
      Path.extension path ≠ some classExtension →
      (Scan.run t .canonical path).value? = some scan →
      ∃ e, (Extraction.run t ⟨.canonical, parallel⟩ [path]).value? = some e ∧
        (t.doesExist path = false → (run t path).value? = some (.error (.notFound path)) ∧
          e.mappings = [] ∧ e.diagnostics = [] ∧ e.stats.archivesMissing = 1) ∧
        (t.doesExist path = true → ∃ i, (run t path).value? = some (.ok i) ∧ Tells path i e)) ∧
    ∀ t file data, Path.extension file = some classExtension → t.read file = .ok data →
      ∀ t' order path bs ms m i scan, Opens t' path bs ms → ms[i]? = some m →
        Scan.classSuffix.toList <:+ m.name.toList → Readable bs m data →
        (Scan.run t' order path).value? = some scan →
        ∃ (l : Ledger path order bs ms) (before after : List Entry),
          l.visits = before ++ (m, i) :: after ∧
          (∀ h, (run t file).value? = some (.ok ⟨file, [h], []⟩) ↔
            HasBetween l before after scan (.header h)) ∧
          ∀ e, (run t file).value? = some (.error (.classDecode file e)) ↔
            HasBetween l before after scan (.diagnostic (.undecoded path m.name e)) := by
  constructor
  · intro t path parallel scan hb hx h
    have hr : (Extraction.run t ⟨.canonical, parallel⟩ [path]).value? = _ :=
      Extraction.run_singleton _ hb
    rw [h] at hr
    refine ⟨_, hr, fun he => ?_, fun he => ?_⟩
    · rw [Scan.run_missing .canonical he] at h
      cases h
      rw [value?_scan hx, Scan.run_missing .canonical he]
      exact ⟨rfl, rfl, rfl, rfl⟩
    · rw [value?_scan hx, h]
      obtain ⟨i, hi, tells⟩ := tells_of_scan h he
      exact ⟨i, congrArg some hi, tells⟩
  · intro t file data hx hr t' order path bs ms m i scan ho hm hn hd h
    rw [Scan.run_opens order ho] at h
    obtain ⟨l, -, hheaders, hdiagnostics⟩ := (Scan.accounted_scanned ho h).scanned bs ms ho
    obtain ⟨start, hs, -⟩ := hd.decompressed
    have hv : (m, i) ∈ l.visits := (l.mem_visits m i).mpr ⟨hm, ⟨start, hs⟩, hn⟩
    obtain ⟨before, after, hl⟩ := List.append_of_mem hv
    refine ⟨l, before, after, hl, fun h => ?_, fun e => ?_⟩
    · rw [value?_class hx, Option.some_inj, ofClass_eq_ok hr,
        Scan.hasBetween_iff hl hheaders hdiagnostics, Scan.visit_eq_header hd]
    · rw [value?_class hx, Option.some_inj, ofClass_eq_error hr,
        Scan.hasBetween_iff hl hheaders hdiagnostics, Scan.visit_eq_undecoded hd]

/-- An archive beside a class file, whose content is that of an entry which does not decode. -/
def besideTree : FileTree :=
  writtenTree.put ["A.class"] (.file ((classBytes "p/A" "A.java").take 7))

def sortedEntries : List Archive.Packed := writtenEntries.drop 1 ++ writtenEntries.take 1

def sortedTree : FileTree :=
  (FileTree.empty []).put ["b.jar"] (.file (Archive.written Archive.Locator.mark sortedEntries))

theorem agrees_with_extraction_sample :
    (∃ e i, (Extraction.run sortedTree ⟨.canonical, true⟩ ["/b.jar"]).value? = some e ∧
      (run sortedTree "/b.jar").value? = some (.ok i) ∧ Tells "/b.jar" i e ∧
      i.classes = [⟨"p.B", some "B.java"⟩] ∧ e.mappings = [⟨"B.java", ["p.B"], "p"⟩] ∧
      e.diagnostics.length = 1) ∧
    ∃ (l : Ledger "/b.jar" .native (Archive.written Archive.Locator.mark writtenEntries)
        (Archive.membersOf Archive.Locator.mark writtenEntries)) (before after : List Entry)
        (m : Member), l.visits = before ++ (m, 1) :: after ∧
      (run besideTree "/A.class").value? =
        some (.error (.classDecode "/A.class" (.unexpectedEnd 6))) ∧
      HasBetween l before after ⟨"/b.jar", .scanned, 2, [⟨"p.B", some "B.java"⟩],
          [.undecoded "/b.jar" "A.class" (.unexpectedEnd 6)]⟩
        (.diagnostic (.undecoded "/b.jar" "A.class" (.unexpectedEnd 6))) := by
  constructor
  · have opens : Opens sortedTree "/b.jar" (Archive.written Archive.Locator.mark sortedEntries) _ :=
      Scan.opens_written (by decide +kernel) (by decide +kernel)
    have scanned : (Scan.run sortedTree .canonical "/b.jar").value? = some ⟨"/b.jar", .scanned, 2,
        [⟨"p.B", some "B.java"⟩], [.undecoded "/b.jar" "A.class" (.unexpectedEnd 6)]⟩ := by
      rw [Scan.run_sorted .canonical opens (Scan.located_written _ _) (by decide +kernel)]
      decide +kernel
    have other : Path.extension "/b.jar" ≠ some classExtension := by decide +kernel
    obtain ⟨e, he, -, agrees⟩ := agrees_with_extraction.1 sortedTree "/b.jar" true _
      (by decide +kernel) other scanned
    obtain ⟨i, hi, tells⟩ := agrees (by decide +kernel)
    refine ⟨e, i, he, hi, tells, ?_⟩
    rw [value?_scan other, scanned] at hi
    cases hi
    exact ⟨rfl, tells.mappings.symm.trans (by decide +kernel),
      (List.length_map _).symm.trans (congrArg List.length tells.diagnostics.symm)⟩
  · have opens : Opens writtenTree "/b.jar"
        (Archive.written Archive.Locator.mark writtenEntries) _ :=
      Scan.opens_written (by decide +kernel) (by decide +kernel)
    have entry : (Archive.membersOf Archive.Locator.mark writtenEntries)[1]?.map
        (fun m => (m.name, m.content (Archive.written Archive.Locator.mark writtenEntries))) =
          some ("A.class", .ok ((classBytes "p/A" "A.java").take 7)) := by decide +kernel
    obtain ⟨m, hm, he⟩ := Option.map_eq_some_iff.mp entry
    obtain ⟨hname, hcontent⟩ := Prod.mk.inj he
    have scanned : (Scan.run writtenTree .native "/b.jar").value? = some ⟨"/b.jar", .scanned, 2,
        [⟨"p.B", some "B.java"⟩], [.undecoded "/b.jar" "A.class" (.unexpectedEnd 6)]⟩ := by
      decide +kernel
    have inspected : (run besideTree "/A.class").value? =
        some (.error (.classDecode "/A.class" (.unexpectedEnd 6))) := by decide +kernel
    obtain ⟨l, before, after, hl, -, undecoded⟩ := agrees_with_extraction.2 besideTree "/A.class"
      ((classBytes "p/A" "A.java").take 7) (by decide +kernel) (by decide +kernel) writtenTree
      .native "/b.jar" _ _ m 1 _ opens hm (by rw [hname]; decide)
      (Member.content_eq_ok.mp hcontent) scanned
    have placed := (undecoded _).mp inspected
    rw [hname] at placed
    exact ⟨l, before, after, m, hl, inspected, placed⟩

end Inspection

end JarIndex
