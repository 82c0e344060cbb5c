import JarIndex.Proofs.Archive.RoundTrip
import JarIndex.Proofs.Scan.Outcome

/-!
# Every entry of an archive is accounted for

A scan gives one header or one diagnostic for each class entry, in the order of
the visits, and one diagnostic for each member whose local header cannot be read.
What an entry gives depends on the bytes of the archive and the entry alone.
-/

set_option autoImplicit false

namespace JarIndex.Scan

open Archive (Member Fault Readable)
open ClassFile (Header)

/-- What a class entry gives: the header of its whole content, or one diagnostic with its name
that says why there is none. -/
inductive Gives (path : String) (bs : Bytes) (m : Member) : Visit → Prop where
  | header {data : Bytes} {h : Header} (read : Readable bs m data)
      (parsed : ClassFile.parse data = .ok h) : Gives path bs m (.header h)
  | undecoded {data : Bytes} {e : ClassFile.DecodeError} (read : Readable bs m data)
      (parsed : ClassFile.parse data = .error e) :
      Gives path bs m (.diagnostic (.undecoded path m.name e))
  | unread {f : Fault} (unreadable : ∀ data, ¬ Readable bs m data)
      (cause : m.content bs = .error (.fault f)) :
      Gives path bs m (.diagnostic (.unreadEntry path m.name f))

theorem visit_gives {path : String} {bs : Bytes} {m : Member}
    (h : visit path bs m ≠ .abort) : Gives path bs m (visit path bs m) := by
  unfold visit at *
  cases hc : m.content bs with
  | error u =>
    have hu : ∀ data, ¬ Readable bs m data := by
      intro data hr
      rw [Member.content_eq_ok.mpr hr] at hc
      cases hc
    cases u with
    | fault f => exact .unread hu hc
    | abort =>
      rw [hc] at h
      exact absurd rfl h
  | ok data =>
    have hr := Member.content_eq_ok.mp hc
    dsimp only
    cases hp : ClassFile.parse data with
    | ok x => exact .header hr hp
    | error e => exact .undecoded hr hp

section Diagnostics

variable {path : String} {bs : Bytes} {m : Member} {d : Diagnostic}

theorem visit_gives_diagnostic (h : (visit path bs m).diagnostic? = some d) :
    Gives path bs m (.diagnostic d) := by
  have ha : visit path bs m ≠ .abort := by
    intro ha
    rw [ha] at h
    cases h
  have hg := visit_gives ha
  cases hv : visit path bs m with
  | abort => exact absurd hv ha
  | header x =>
    rw [hv] at h
    cases h
  | diagnostic d' =>
    rw [hv] at h hg
    cases h
    exact hg

theorem Gives.names (h : Gives path bs m (.diagnostic d)) :
    d.scope = .entry ∧ d.archive = path ∧ d.entry = some m.name := by
  cases h <;> exact ⟨rfl, rfl, rfl⟩

end Diagnostics

/-- The account of an archive: the members whose local header cannot be read, by number, and
the class entries among the others, in the order of their visits with what each gives. -/
structure Ledger (path : String) (order : EntryOrder) (bs : Bytes) (ms : List Member) where
  lost : List (Nat × Fault)
  visits : List Entry
  lost_ordered : lost.Pairwise fun a b => a.1 < b.1
  mem_lost : ∀ i f, (i, f) ∈ lost ↔ ∃ m, ms[i]? = some m ∧ m.dataOffset bs = .error f
  visits_ordered : visits.Pairwise (Precedes order)
  mem_visits : ∀ m i, (m, i) ∈ visits ↔ ms[i]? = some m ∧
    (∃ start, m.dataOffset bs = .ok start) ∧ classSuffix.toList <:+ m.name.toList
  gives : ∀ e ∈ visits, Gives path bs e.1 (visit path bs e.1)

namespace Ledger

variable {path : String} {order : EntryOrder} {bs : Bytes} {ms : List Member}

def headers (l : Ledger path order bs ms) : List Header :=
  l.visits.filterMap fun e => (visit path bs e.1).header?

def diagnostics (l : Ledger path order bs ms) : List Diagnostic :=
  l.lost.map (unlisted path) ++ l.visits.filterMap fun e => (visit path bs e.1).diagnostic?

def ofVisited (h : ∀ e ∈ visited order bs ms, visit path bs e.1 ≠ .abort) :
    Ledger path order bs ms where
  lost := lostFrom bs 0 ms
  visits := visited order bs ms
  lost_ordered := Scan.lost_ordered bs ms
  mem_lost _ _ := Scan.mem_lost
  visits_ordered := inOrder_precedes order (classEntries_ordered bs ms)
  mem_visits m i := by
    unfold visited
    rw [(inOrder_perm order _).mem_iff, mem_classEntries, isClassEntry, List.isSuffixOf_iff_suffix]
  gives e he := visit_gives (h e he)

end Ledger

/-- That a scan tells whether there is nothing at its path, no archive or an archive, and gives
what there is to give: nothing, one diagnostic of the archive, or what a ledger says. -/
structure Accounted (t : FileTree) (order : EntryOrder) (path : String) (scan : Scan) : Prop where
  missing_iff : scan.status = .missing ↔ t.doesExist path = false
  failed_iff : scan.status = .failed ↔
    t.doesExist path = true ∧ ¬ ∃ bs ms, Opens t path bs ms
  scanned_iff : scan.status = .scanned ↔ ∃ bs ms, Opens t path bs ms
  missing : scan.status = .missing →
    scan.headers = [] ∧ scan.diagnostics = [] ∧ scan.classEntries = 0
  failed : scan.status = .failed → scan.headers = [] ∧ scan.classEntries = 0 ∧
    ∃ d, scan.diagnostics = [d] ∧ d.scope = .archive ∧ d.archive = path
  scanned : ∀ bs ms, Opens t path bs ms → ∃ l : Ledger path order bs ms,
    scan.classEntries = l.visits.length ∧ scan.headers = l.headers ∧
      scan.diagnostics = l.diagnostics

section Accounts

variable {t : FileTree} {order : EntryOrder} {path : String} {bs : Bytes} {ms : List Member}

theorem accounted_missing (he : t.doesExist path = false) :
    Accounted t order path ⟨path, .missing, 0, [], []⟩ := by
  have ho : ∀ bs ms, ¬ Opens t path bs ms := by
    intro bs ms h
    rw [exists_of_openNode h.file] at he
    cases he
  constructor
  · simp [he]
  · simp [he]
  · simp [ho]
  · simp
  · simp
  · intro bs ms h
    exact absurd h (ho bs ms)

theorem accounted_failed {d : Diagnostic} (he : t.doesExist path = true)
    (ho : ¬ ∃ bs ms, Opens t path bs ms) (hs : d.scope = .archive) (hp : d.archive = path) :
    Accounted t order path ⟨path, .failed, 0, [], [d]⟩ := by
  constructor
  · simp [he]
  · simp [he, ho]
  · simp [ho]
  · simp
  · intro _
    exact ⟨rfl, rfl, d, rfl, hs, hp⟩
  · intro bs ms h
    exact absurd ⟨bs, ms, h⟩ ho

theorem accounted_scanned {scan : Scan} (ho : Opens t path bs ms)
    (h : (ofMembers path order bs ms).value? = some scan) : Accounted t order path scan := by
  have he := exists_of_openNode ho.file
  have hx : ∃ bs ms, Opens t path bs ms := ⟨bs, ms, ho⟩
  rw [value?_ofMembers] at h
  split at h
  · rename_i hv
    cases h
    constructor
    · simp [he]
    · simp [hx]
    · simp [hx]
    · simp
    · simp
    · intro bs' ms' ho'
      obtain ⟨rfl, rfl⟩ := ho.unique ho'
      exact ⟨.ofVisited hv, rfl, rfl, rfl⟩
  · cases h

theorem accounted_of_value {scan : Scan} (h : (run t order path).value? = some scan) :
    Accounted t order path scan := by
  by_cases he : t.doesExist path = true
  · by_cases ho : ∃ bs ms, Opens t path bs ms
    · obtain ⟨bs, ms, hbm⟩ := ho
      rw [run_opens order hbm] at h
      exact accounted_scanned hbm h
    · obtain ⟨d, hs, hp, hr⟩ := run_failed order he ho
      rw [hr] at h
      cases h
      exact accounted_failed he ho hs hp
  · have hf : t.doesExist path = false := by simpa using he
    rw [run_missing order hf] at h
    cases h
    exact accounted_missing hf

end Accounts

/-- A scan that ends accounts for each member of its archive once, whatever the other members
are. -/
theorem run_accounted (t : FileTree) (order : EntryOrder) (path : String) (scan : Scan)
    (h : (run t order path).value? = some scan) : Accounted t order path scan :=
  accounted_of_value h

def sampleClass : Bytes :=
  [0xCA, 0xFE, 0xBA, 0xBE, 0, 0, 0, 52, 0, 3, 7, 0, 2, 1, 0, 1, 65, 0, 0, 0, 1] ++
    List.replicate 10 0

def sampleJar : Bytes :=
  Member.localMark ++ List.replicate 26 0 ++ sampleClass ++
  Member.mark ++ List.replicate 12 0 ++ [184, 147, 35, 14, 31, 0, 0, 0, 31, 0, 0, 0, 7, 0] ++
    List.replicate 16 0 ++ [65, 46, 99, 108, 97, 115, 115] ++
  Archive.EndRecord.mark ++ [0, 0, 0, 0, 1, 0, 1, 0, 53, 0, 0, 0, 61, 0, 0, 0, 0, 0]

def sampleTree : FileTree := (FileTree.empty []).put ["a.jar"] (.file sampleJar)

def classBytes (name source : String) : Bytes :=
  [0xCA, 0xFE, 0xBA, 0xBE, 0, 0, 0, 52, 0, 5, 7, 0, 2] ++ textBytes name ++
    textBytes "SourceFile" ++ textBytes source ++
    [0, 0, 0, 1] ++ List.replicate 8 0 ++ [0, 1, 0, 3, 0, 0, 0, 2, 0, 4]
where
  textBytes (s : String) : Bytes := 1 :: Bytes.ofNatBE 2 (utf8Bytes s).length ++ utf8Bytes s

def classEntry (file name source : String) (h : (utf8Bytes file).length ≤ Archive.max16) :
    Archive.Packed :=
  ⟨file, .plain (classBytes name source), 2048, ⟨20, 20, 0, 0, 0, 0⟩, h, by decide, by decide,
    by decide⟩

/-- A class in two blocks, one that breaks off and a text that looks like an empty archive. -/
def writtenEntries : List Archive.Packed :=
  [⟨"B.class", .blocks ⟨[⟨0, (classBytes "p/B" "B.java").take 10, by decide, by decide⟩],
      ⟨3, (classBytes "p/B" "B.java").drop 10, by decide, by decide⟩⟩, 2048,
      ⟨20, 20, 0, 0, 0, 0⟩, by decide, by decide, by decide, by decide⟩,
    ⟨"A.class", .plain ((classBytes "p/A" "A.java").take 7), 2056, ⟨20, 20, 0, 0, 0, 0⟩,
      by decide, by decide, by decide, by decide⟩,
    ⟨"end.txt", .plain (Archive.EndRecord.mark ++ List.replicate 18 0), 2048,
      ⟨20, 20, 0, 0, 0, 0⟩, by decide, by decide, by decide, by decide⟩]

def writtenTree : FileTree :=
  (FileTree.empty []).put ["b.jar"] (.file (Archive.written Archive.Locator.mark writtenEntries))

/-- An archive with a class that does not decode, and one whose only member has no local header. -/
def damagedTree : FileTree := writtenTree.put ["a.jar"] (.file (0 :: sampleJar.tail))

theorem run_accounted_sample :
    (∃ l : Ledger "/b.jar" .native (Archive.written Archive.Locator.mark writtenEntries)
        (Archive.membersOf Archive.Locator.mark writtenEntries),
      l.visits.length = 2 ∧ (∀ e ∈ l.visits, e.1.name ≠ "end.txt") ∧
      l.headers = [⟨"p.B", some "B.java"⟩] ∧
      l.diagnostics = [.undecoded "/b.jar" "A.class" (.unexpectedEnd 6)]) ∧
    ∃ bs ms, Opens damagedTree "/a.jar" bs ms ∧ ∃ l : Ledger "/a.jar" .native bs ms,
      l.visits.length = 0 ∧ l.headers = [] ∧
      l.diagnostics = [.unreadEntry "/a.jar" "#0" .localHeader] := by
  constructor
  · have opens : Opens writtenTree "/b.jar" (Archive.written Archive.Locator.mark writtenEntries)
        (Archive.membersOf Archive.Locator.mark writtenEntries) :=
      ⟨by decide +kernel, Archive.members_written (by decide +kernel)⟩
    have hr : (run writtenTree .native "/b.jar").value? = some ⟨"/b.jar", .scanned, 2,
        [⟨"p.B", some "B.java"⟩], [.undecoded "/b.jar" "A.class" (.unexpectedEnd 6)]⟩ := by
      decide +kernel
    obtain ⟨l, hn, hh, hd⟩ := (run_accounted writtenTree .native "/b.jar" _ hr).scanned _ _ opens
    refine ⟨l, hn.symm, fun e he => ?_, hh.symm, hd.symm⟩
    have class_name : classSuffix.toList <:+ e.1.name.toList := ((l.mem_visits e.1 e.2).mp he).2.2
    intro hname
    rw [hname] at class_name
    exact absurd class_name (by decide)
  · have hr : (run damagedTree .native "/a.jar").value? = some ⟨"/a.jar", .scanned, 0, [],
        [.unreadEntry "/a.jar" "#0" .localHeader]⟩ := by decide +kernel
    have ha := run_accounted damagedTree .native "/a.jar" _ hr
    obtain ⟨bs, ms, opens⟩ := ha.scanned_iff.mp rfl
    obtain ⟨l, hn, hh, hd⟩ := ha.scanned bs ms opens
    exact ⟨bs, ms, opens, l, hn.symm, hh.symm, hd.symm⟩

end JarIndex.Scan
