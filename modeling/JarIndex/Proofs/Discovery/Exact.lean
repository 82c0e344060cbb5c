import JarIndex.Proofs.Discovery.Walk

/-!
# All jars under a directory

Where no ignore file is, what is found are all jars under the directory, each once and
in order, whatever order they are come upon in. Only a directory whose name is a single
dash is taken for something else and has none.
-/

set_option autoImplicit false

namespace JarIndex.Discovery

open FileTree (maxPath)
open JarIndex.Path (Increasing inOrder)

/-- That there is no ignore file in a directory, nor below or above it. -/
structure Unruled (t : FileTree) (dir : String) (base : Location) : Prop where
  inside : ∀ names, Reached t base names .directory →
    t.isFile (Path.join (pathOf dir names) ignoreFile) = false
  above : ∀ l, l <+: base → l ≠ base → t.isFile (Path.join (absolute l) ignoreFile) = false

/-- That entries are delivered in some order: each of them once, and all that the system has
a path for. -/
structure Delivers (t : FileTree) (dir : String) (base : Location) (delivered : List String) :
    Prop where
  nodup : delivered.Nodup
  reached : ∀ path ∈ delivered, ∃ names n, Reached t base names n ∧ path = pathOf dir names
  all : ∀ names n, Reached t base names n → (pathOf dir names).utf8ByteSize ≤ maxPath →
    pathOf dir names ∈ delivered

def isJarPath (t : FileTree) (path : String) : Bool :=
  t.isFile path && Path.extension path = some jarExtension

variable {t : FileTree} {dir : String} {base : Location} {names : List String} {n : Node}
  {js : List (List String)} {delivered : List String}

theorem rulesIn_eq_none (h : t.isFile (Path.join dir ignoreFile) = false) :
    rulesIn t dir = none := by
  rw [Option.eq_none_iff_forall_ne_some]
  intro r hr
  obtain ⟨l, content, hn, -⟩ := rulesIn_eq_some.mp hr
  rw [FileTree.isFile_iff.mpr ⟨l, content, hn⟩] at h
  cases h

theorem Unruled.shown (h : Unruled t dir base) (hr : Reached t base names n) :
    ¬ Hidden ⟨t, dir, base⟩ names := by
  rintro ⟨start, -, hp, ignored⟩
  have above : (Walk.mk t dir base).rulesAbove = [] := by
    unfold Walk.rulesAbove
    rw [List.filterMap_eq_nil_iff]
    intro l hl
    rw [mem_properStarts] at hl
    exact rulesIn_eq_none (h.above l hl.1 hl.2)
  have inside : (Walk.mk t dir base).rulesInside start = [] := by
    unfold Walk.rulesInside
    rw [List.filterMap_eq_nil_iff]
    intro l hl
    obtain ⟨hl, hne⟩ := mem_properStarts.mp hl
    have hbelow : l ≠ names := by
      rintro rfl
      exact hne (hl.eq_of_length_le hp.length_le)
    have directories := (reached_iff.mp hr).1
    refine rulesIn_eq_none (h.inside l (reached_iff.mpr ⟨?_, directories l (hl.trans hp) hbelow⟩))
    intro m hm hml
    apply directories m (hm.trans (hl.trans hp))
    rintro rfl
    exact hml (hm.eq_of_length_le (hl.trans hp).length_le)
  unfold Walk.isIgnored at ignored
  rw [above, inside] at ignored
  simp [Ignore.Rules.firstVerdict] at ignored

theorem unruled_of_absent (h : ∀ e ∈ t.nodes, e.1.getLast? ≠ some ignoreFile) :
    Unruled t dir base := by
  have absent : ∀ l : Location, t.find? (l ++ [ignoreFile]) = none := by
    intro l
    rw [Option.eq_none_iff_forall_ne_some]
    intro n hn
    exact h _ ((FileTree.find?_eq_some (by simp)).mp hn) (by simp)
  have unread : ∀ d, t.isFile (Path.join d ignoreFile) = false := by
    intro d
    rw [← Bool.not_eq_true, FileTree.isFile_iff]
    rintro ⟨l, content, hn⟩
    have leads := (FileTree.node_eq_ok.mp hn).2
    rw [FileTree.names_join d (by decide)] at leads
    rcases leads.last (by decide) (by decide) with ⟨b, rfl⟩ | ⟨_, b, target, hl, _⟩
    · cases (absent b).symm.trans leads.found
    · cases (absent b).symm.trans hl
  exact ⟨fun _ _ => unread _, fun _ _ _ => unread _⟩

theorem Reached.isFile (h : Reached t base names n) (hd : t.node dir = .ok (base, .directory))
    (named : t.Named) (hl : ∀ target, n ≠ .link target) : t.isFile (pathOf dir names) ↔
      (pathOf dir names).utf8ByteSize ≤ maxPath ∧ ∃ content, n = .file content := by
  rw [FileTree.isFile_iff]
  constructor
  · rintro ⟨l, content, hn⟩
    have hs := (FileTree.node_eq_ok.mp hn).1.short
    rw [h.node hd named hl hs] at hn
    cases hn
    exact ⟨hs, content, rfl⟩
  · rintro ⟨hs, content, rfl⟩
    exact ⟨_, content, h.node hd named hl hs⟩

theorem inOrder_delivered (named : t.Named) (hd : t.node dir = .ok (base, .directory))
    (hf : Finds t dir base js) (hj : ∀ names, names ∈ js ↔ IsJar t dir base names)
    (h : Delivers t dir base delivered) :
    inOrder (delivered.filter (isJarPath t)) = js.map (pathOf dir) := by
  have hne := (FileTree.node_eq_ok.mp hd).1.nonempty
  have increasing := (increasing_map hne (hf.isName named)).mpr hf.increasing
  apply Path.inOrder_of_perm increasing
  rw [List.perm_ext_iff_of_nodup (h.nodup.filter _) increasing.nodup_key.of_map]
  intro path
  rw [List.mem_filter, List.mem_map]
  unfold isJarPath
  rw [Bool.and_eq_true, decide_eq_true_eq]
  constructor
  · rintro ⟨hmem, file, hext⟩
    obtain ⟨names, n, reached, rfl⟩ := h.reached path hmem
    have hnames : names ≠ [] := by
      rintro rfl
      obtain ⟨l, content, hn⟩ := FileTree.isFile_iff.mp file
      cases hd.symm.trans hn
    have called := (calledJar_iff hne (reached.isName named)).mpr ⟨hnames, hext⟩
    exact ⟨names, (hj names).mpr ⟨⟨n, reached⟩, called, file⟩, rfl⟩
  · rintro ⟨names, hmem, rfl⟩
    obtain ⟨⟨n, reached⟩, called, file⟩ := (hj names).mp hmem
    obtain ⟨l, content, hn⟩ := FileTree.isFile_iff.mp file
    refine ⟨h.all names n reached (FileTree.node_eq_ok.mp hn).1.short, file, ?_⟩
    exact ((calledJar_iff hne (reached.isName named)).mp called).2

/-- Jars are found exactly in what is a directory. Where no ignore file is, all that are under it
are found, in the order of their names, and files whose paths the system takes are among them; but
nothing is found in a directory that is taken for standard input. -/
theorem jars_exact (t : FileTree) (dir : String) (named : t.Named) :
    (∀ e, jars t dir = .error e ↔ e = ⟨dir⟩ ∧ t.isDirectory dir = false) ∧
    ∀ base, t.node dir = .ok (base, .directory) → Unruled t dir base →
      (isStandardInput dir → jars t dir = .ok []) ∧
      (isStandardInput dir = false → ∃ js : List (List String),
        jars t dir = .ok (js.map (pathOf dir)) ∧
        js.Pairwise (· < ·) ∧ Increasing (js.map (pathOf dir)) ∧
        (∀ names, names ∈ js ↔ IsJar t dir base names) ∧
        ∀ delivered, Delivers t dir base delivered →
          inOrder (delivered.filter (isJarPath t)) = js.map (pathOf dir)) ∧
      ∀ names n, Reached t base names n → (∀ target, n ≠ .link target) →
        (t.isFile (pathOf dir names) ↔
          (pathOf dir names).utf8ByteSize ≤ maxPath ∧ ∃ content, n = .file content) := by
  refine ⟨fun e => jars_eq_error, ?_⟩
  intro base hd unruled
  refine ⟨jars_standardInput hd, ?_, fun names n reached hl => reached.isFile hd named hl⟩
  intro hs
  obtain ⟨js, finds, hjars⟩ := jars_finds named hd hs
  have mem : ∀ names, names ∈ js ↔ IsJar t dir base names := by
    intro names
    rw [finds.mem]
    refine and_iff_left_of_imp fun jar => ?_
    obtain ⟨n, reached⟩ := jar.reached
    exact unruled.shown reached
  have hne := (FileTree.node_eq_ok.mp hd).1.nonempty
  refine ⟨js, hjars, finds.increasing, ?_, mem, fun delivered h => ?_⟩
  · exact (increasing_map hne (finds.isName named)).mpr finds.increasing
  · exact inOrder_delivered named hd finds mem h

def walkedEntries : List (List String × Node) :=
  [(["l.jar"], .link "./.h/z.jar"), ([".jar"], .file []), (["a", "x.jar"], .file []),
    (["a.jar"], .file []), (["e"], .link ".h"), ([".h", "z.jar"], .file []), ([".h"], .directory),
    (["a"], .directory), ([], .directory)]

def walkedTree : FileTree where
  home := []
  nodes := walkedEntries.map fun e => ("d" :: e.1, e.2)
  nodup := by decide

/-- Of a directory with two links, one of them to a directory, and a file with nothing before its
last dot. -/
theorem jars_exact_sample :
    walkedTree.Named ∧ Unruled walkedTree "d" ["d"] ∧
      jars walkedTree "d" = .ok ["d/.h/z.jar", "d/a/x.jar", "d/a.jar", "d/l.jar"] := by
  have named : walkedTree.Named := by decide +kernel
  have unruled : Unruled walkedTree "d" ["d"] := unruled_of_absent (by decide +kernel)
  obtain ⟨-, found, -⟩ := (jars_exact walkedTree "d" named).2 ["d"] (by decide +kernel) unruled
  obtain ⟨js, hjars, -, -, -, ordered⟩ := found (by decide +kernel)
  have delivers : Delivers walkedTree "d" ["d"] (walkedEntries.map fun e => pathOf "d" e.1) := by
    refine ⟨by decide +kernel, ?_, ?_⟩
    · intro path hp
      obtain ⟨e, he, rfl⟩ := List.mem_map.mp hp
      have reached : ∀ e ∈ walkedEntries, Reached walkedTree ["d"] e.1 e.2 := by decide +kernel
      exact ⟨e.1, e.2, reached e he, rfl⟩
    · intro names n hr _
      have hm := (FileTree.find?_eq_some (by simp)).mp hr.found
      obtain ⟨e, he, heq⟩ := List.mem_map.mp hm
      cases heq
      exact List.mem_map_of_mem he
  refine ⟨named, unruled, ?_⟩
  rw [hjars, ← ordered _ delivers]
  congr 1
  apply Path.inOrder_of_perm
  · unfold Increasing
    decide +kernel
  · decide +kernel

def dashedTree : FileTree where
  home := []
  nodes := [(["-"], .directory), (["-", "a.jar"], .file [])]
  nodup := by decide

/-- A directory whose name is a dash is one, has a jar, and none is found in it. -/
theorem dashed_directory_empty :
    dashedTree.isDirectory "-" ∧ IsJar dashedTree "-" ["-"] ["a.jar"] ∧
    jars dashedTree "-" = .ok [] ∧
    ¬ ∀ t dir base, t.Named → t.node dir = .ok (base, .directory) → Unruled t dir base →
      ∃ js : List (List String), jars t dir = .ok (js.map (pathOf dir)) ∧
        ∀ names, names ∈ js ↔ IsJar t dir base names := by
  have jar : IsJar dashedTree "-" ["-"] ["a.jar"] :=
    ⟨⟨.file [], by decide +kernel⟩, ⟨[], "a", by decide, by decide⟩, by decide +kernel⟩
  have empty : jars dashedTree "-" = .ok [] := by decide +kernel
  refine ⟨by decide +kernel, jar, empty, ?_⟩
  intro h
  obtain ⟨js, hjars, mem⟩ := h dashedTree "-" ["-"] (by decide +kernel) (by decide +kernel)
    (unruled_of_absent (by decide +kernel))
  rw [empty] at hjars
  have hjs : js = [] := by simpa using hjars
  have hmem := (mem ["a.jar"]).mpr jar
  rw [hjs] at hmem
  cases hmem

end JarIndex.Discovery
