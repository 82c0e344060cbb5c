import JarIndex.PathList
import JarIndex.Proofs.Discovery.Walk
import JarIndex.Proofs.Extraction.Balance
import JarIndex.Proofs.Extraction.Ending
import JarIndex.Proofs.Text.Lines

/-!
# From what is asked for to what is scanned

The paths of a run are those given, then the lines of the list file, then the jars under
the directory, each as it stands there. An extraction counts all of them, leaves out the
blank ones and scans the others as they are, in this order.
-/

set_option autoImplicit false

namespace JarIndex

open Extraction (ofScans requested)
open Text (Written isBlankText)

theorem FileTree.readText_eq_ok {t : FileTree} {path text : String} :
    t.readText path = .ok text ↔ t.read path = .ok (utf8Bytes text) := by
  unfold readText
  cases t.read path with
  | error f => simp
  | ok content =>
    have hu : Bytes.utf8? content = some text ↔ content = utf8Bytes text := by
      rw [Bytes.utf8?_eq_some, eq_comm]
    dsimp only
    rw [Except.ok.injEq, ← hu]
    cases Bytes.utf8? content <;> simp

namespace PathList

/-- That these are the lines of the list file, if there is one. -/
inductive Lists (t : FileTree) : Option String → List String → Prop where
  | absent : Lists t none []
  | file {path text : String} {lines : List String} (read : t.read path = .ok (utf8Bytes text))
      (written : Written lines text) : Lists t (some path) lines

/-- That these are the jars under the directory, if there is one. -/
inductive Holds (t : FileTree) : Option String → List String → Prop where
  | absent : Holds t none []
  | directory {path : String} {jars : List String} (found : Discovery.jars t path = .ok jars) :
      Holds t (some path) jars

/-- Why there is no list of paths: the list file cannot be read as text, or the directory is
none. -/
inductive Fails (t : FileTree) (jarsFile dir : Option String) : Prop where
  | unread {path : String} (given : jarsFile = some path)
      (unread : ∀ text, t.read path ≠ .ok (utf8Bytes text))
  | noDirectory {path : String} (given : dir = some path) (absent : t.isDirectory path = false)

variable {t : FileTree} {jars found xs : List String} {jarsFile dir : Option String}

theorem lists_iff : optional (ofFile t) jarsFile = .ok xs ↔ Lists t jarsFile xs := by
  cases jarsFile with
  | none =>
    constructor
    · intro h
      cases h
      exact .absent
    · intro h
      cases h
      rfl
  | some path =>
    show ofFile t path = _ ↔ _
    unfold ofFile
    constructor
    · intro h
      cases hr : t.readText path with
      | error f =>
        rw [hr] at h
        cases h
      | ok text =>
        rw [hr] at h
        cases h
        exact .file (FileTree.readText_eq_ok.mp hr) (Text.lines_eq_iff.mp rfl)
    · rintro (_ | ⟨read, written⟩)
      rw [FileTree.readText_eq_ok.mpr read]
      exact congrArg Except.ok written.lines_eq

theorem holds_iff : optional (ofDirectory t) dir = .ok found ↔ Holds t dir found := by
  cases dir with
  | none =>
    constructor
    · intro h
      cases h
      exact .absent
    · intro h
      cases h
      rfl
  | some path =>
    show ofDirectory t path = _ ↔ _
    unfold ofDirectory
    constructor
    · intro h
      cases hj : Discovery.jars t path with
      | error e =>
        rw [hj] at h
        cases h
      | ok js =>
        rw [hj] at h
        cases h
        exact .directory hj
    · rintro (_ | hj)
      rw [hj]

theorem resolve_eq_ok {paths : List String} : resolve t jars jarsFile dir = .ok paths ↔
    ∃ xs found, Lists t jarsFile xs ∧ Holds t dir found ∧ paths = jars ++ xs ++ found := by
  simp only [← lists_iff, ← holds_iff]
  unfold resolve
  cases optional (ofFile t) jarsFile with
  | error f => simp [bind, Except.bind]
  | ok xs =>
    cases optional (ofDirectory t) dir with
    | error f => simp [bind, Except.bind]
    | ok found => simp [bind, Except.bind, pure, Except.pure, eq_comm]

theorem exists_lists : (∃ xs, Lists t jarsFile xs) ↔
    ∀ path, jarsFile = some path → ∃ text, t.read path = .ok (utf8Bytes text) := by
  constructor
  · rintro ⟨xs, _ | ⟨read, -⟩⟩ path hp
    · cases hp
    · cases hp
      exact ⟨_, read⟩
  · intro h
    cases jarsFile with
    | none => exact ⟨[], .absent⟩
    | some path =>
      obtain ⟨text, read⟩ := h path rfl
      obtain ⟨xs, written⟩ := Text.exists_written text
      exact ⟨xs, .file read written⟩

theorem exists_holds : (∃ found, Holds t dir found) ↔
    ∀ path, dir = some path → t.isDirectory path = true := by
  constructor
  · rintro ⟨found, _ | hj⟩ path hp
    · cases hp
    · cases hp
      by_contra hd
      have he := Discovery.jars_eq_error.mpr ⟨rfl, by simpa using hd⟩
      rw [hj] at he
      cases he
  · intro h
    cases dir with
    | none => exact ⟨[], .absent⟩
    | some path =>
      cases hj : Discovery.jars t path with
      | error e =>
        have hd := (Discovery.jars_eq_error.mp hj).2
        rw [h path rfl] at hd
        cases hd
      | ok js => exact ⟨js, .directory hj⟩

theorem fails_iff : Fails t jarsFile dir ↔
    ¬ ((∃ xs, Lists t jarsFile xs) ∧ ∃ found, Holds t dir found) := by
  rw [exists_lists, exists_holds]
  constructor
  · rintro (⟨given, unread⟩ | ⟨given, absent⟩) ⟨hl, hd⟩
    · obtain ⟨text, read⟩ := hl _ given
      exact unread text read
    · rw [hd _ given] at absent
      cases absent
  · intro h
    by_cases hl : ∀ path, jarsFile = some path → ∃ text, t.read path = .ok (utf8Bytes text)
    · have hd : ¬ ∀ path, dir = some path → t.isDirectory path = true := fun hd => h ⟨hl, hd⟩
      push Not at hd
      obtain ⟨path, given, absent⟩ := hd
      exact .noDirectory given (by simpa using absent)
    · push Not at hl
      obtain ⟨path, given, unread⟩ := hl
      exact .unread given unread

theorem resolve_fails : (∃ f, resolve t jars jarsFile dir = .error f) ↔ Fails t jarsFile dir := by
  have hok : (∃ paths, resolve t jars jarsFile dir = .ok paths) ↔
      (∃ xs, Lists t jarsFile xs) ∧ ∃ found, Holds t dir found := by
    simp only [resolve_eq_ok]
    constructor
    · rintro ⟨_, xs, found, hl, hd, -⟩
      exact ⟨⟨xs, hl⟩, found, hd⟩
    · rintro ⟨⟨xs, hl⟩, found, hd⟩
      exact ⟨_, xs, found, hl, hd, rfl⟩
  rw [fails_iff, ← hok]
  cases resolve t jars jarsFile dir <;> simp

/-- What an extraction gives of the paths from the three sources: it counts them all, scans those
that are not blank, each under the path as it stands, and folds the scans in this order. -/
structure Extracts (t : FileTree) (order : EntryOrder) (jars xs found : List String)
    (e : Extraction) : Prop where
  requested : e.stats.archivesRequested = jars.length + xs.length + found.length
  blank : e.stats.blankPaths = (jars ++ xs ++ found).countP isBlankText
  scanned : ∃ ss, List.Forall₂ (fun path (scan : Scan) =>
      (Scan.run t order path).value? = some scan ∧ scan.path = path)
    ((jars ++ xs ++ found).filter (!isBlankText ·)) ss ∧ e = ofScans (jars ++ xs ++ found) ss

theorem length_sub_requested (paths : List String) :
    paths.length - (requested paths).length = paths.countP isBlankText := by
  unfold requested
  rw [← List.countP_eq_length_filter, List.length_eq_countP_add_countP isBlankText]
  simp

theorem extracts_of_value {settings : Settings} {e : Extraction}
    (h : (Extraction.run t settings (jars ++ xs ++ found)).value? = some e) :
    Extracts t settings.order jars xs found e := by
  rw [Extraction.value?_run] at h
  obtain ⟨ss, hs, rfl⟩ := Option.map_eq_some_iff.mp h
  obtain ⟨hrequested, hblank⟩ :=
    Extraction.paths_foldl_addScan (Extraction.start (jars ++ xs ++ found)).stats ss
  refine ⟨hrequested.trans ?_, hblank.trans (length_sub_requested _), ss, ?_, rfl⟩
  · exact List.length_append.trans (congrArg (· + found.length) List.length_append)
  · exact (Extraction.scans_eq_some.mp hs).imp fun path scan hr => ⟨hr, Scan.run_path hr⟩

/-- No path is lost, altered or moved on the way from the three sources to the scans. -/
theorem paths_preserved (t : FileTree) (jars : List String) (jarsFile dir : Option String) :
    (∀ paths, resolve t jars jarsFile dir = .ok paths ↔
      ∃ xs found, Lists t jarsFile xs ∧ Holds t dir found ∧ paths = jars ++ xs ++ found) ∧
    ((∃ f, resolve t jars jarsFile dir = .error f) ↔ Fails t jarsFile dir) ∧
    ∀ settings xs found,
      ((Extraction.run t settings (jars ++ xs ++ found)).value?.isSome = true ↔
        ∀ path ∈ jars ++ xs ++ found, isBlankText path = false →
          (Scan.run t settings.order path).value?.isSome = true) ∧
      ∀ e, (Extraction.run t settings (jars ++ xs ++ found)).value? = some e →
        Extracts t settings.order jars xs found e := by
  refine ⟨fun paths => resolve_eq_ok, resolve_fails, ?_⟩
  intro settings xs found
  refine ⟨?_, fun e => extracts_of_value⟩
  rw [Extraction.value?_run, Option.isSome_map, Extraction.scans_end_iff]
  simp only [requested, List.mem_filter, Bool.not_eq_true', and_imp]

def listedText : String := "a.jar\r\n\n b.jar \r\n\t\na.jar"

/-- A list with both endings, an empty line, spaces around a path and no ending behind the last
one, and a directory with one jar. -/
def listedTree : FileTree :=
  (((FileTree.empty []).put ["l.txt"] (.file (utf8Bytes listedText))).put
    ["d"] .directory).put ["d", "e.jar"] (.file [])

theorem holds_listed : Holds listedTree (some "d") ["d/e.jar"] := by
  have one : ((⟨listedTree, "d", ["d"]⟩ : Discovery.Walk).below.filter
      (Discovery.Walk.isJar ⟨listedTree, "d", ["d"]⟩
        (Discovery.Walk.rulesAbove ⟨listedTree, "d", ["d"]⟩))).map (Discovery.pathOf "d") =
      ["d/e.jar"] := by decide +kernel
  have node : listedTree.node "d" = .ok (["d"], .directory) := by decide +kernel
  refine .directory ?_
  unfold Discovery.jars
  rw [node]
  dsimp only
  rw [if_neg (by decide +kernel), Discovery.Walk.jars, one, List.mergeSort_singleton]

theorem paths_preserved_sample :
    resolve listedTree ["z.jar", ""] (some "l.txt") (some "d") =
      .ok ["z.jar", "", "a.jar", "", " b.jar ", "\t", "a.jar", "d/e.jar"] ∧
    (∃ f, resolve listedTree ["z.jar"] (some "l.txt") (some "d/e.jar") = .error f) ∧
    ∃ e, (Extraction.run listedTree ⟨.canonical, false⟩
        (["z.jar", ""] ++ ["a.jar", "", " b.jar ", "\t", "a.jar"] ++ ["d/e.jar"])).value? = some e ∧
      e.stats.archivesRequested = 8 ∧ e.stats.blankPaths = 3 := by
  have lists : Lists listedTree (some "l.txt") ["a.jar", "", " b.jar ", "\t", "a.jar"] := by
    have read : listedTree.read "l.txt" = .ok (utf8Bytes listedText) := by decide +kernel
    exact .file read (Text.lines_eq_iff.mp (by decide +kernel))
  obtain ⟨listed, -, extracted⟩ :=
    paths_preserved listedTree ["z.jar", ""] (some "l.txt") (some "d")
  obtain ⟨-, fails, -⟩ := paths_preserved listedTree ["z.jar"] (some "l.txt") (some "d/e.jar")
  refine ⟨(listed _).mpr ⟨_, _, lists, holds_listed, rfl⟩, fails.mpr ?_, ?_⟩
  · exact .noDirectory rfl (by decide +kernel)
  · obtain ⟨ends, counts⟩ := extracted ⟨.canonical, false⟩
      ["a.jar", "", " b.jar ", "\t", "a.jar"] ["d/e.jar"]
    obtain ⟨e, he⟩ := Option.isSome_iff_exists.mp (ends.mpr (by decide +kernel))
    exact ⟨e, he, (counts e he).requested, (counts e he).blank⟩

end PathList

end JarIndex
