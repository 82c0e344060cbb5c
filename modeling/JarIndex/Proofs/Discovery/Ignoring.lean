import JarIndex.Proofs.Discovery.Walk
import JarIndex.Proofs.FileTree.Agreement

/-!
# What ignore files change

Trees that differ in ignore files have the same jars, but for those that the walker's
own ignore files hide in one of them, and for links to ignore files. What git's ignore
files say changes nothing.
-/

set_option autoImplicit false

namespace JarIndex.Discovery

open FileTree (DifferAt Leads)
open JarIndex.Path (IsName Increasing)

def IsIgnoreFile (l : Location) : Prop :=
  l.getLast? = some ignoreFile ∨ l.getLast? = some ".gitignore" ∨ [".git", "info", "exclude"] <:+ l

instance (l : Location) : Decidable (IsIgnoreFile l) :=
  inferInstanceAs (Decidable (_ ∨ _ ∨ _))

def LeadsToChange (t t' : FileTree) (path : String) : Prop :=
  ∃ l n, t.node path = .ok (l, n) ∧ IsIgnoreFile l ∧ t.find? l ≠ t'.find? l

def LinksAgree (t t' : FileTree) : Prop :=
  ∀ b name target links l n, t.find? (b ++ [name]) = some (.link target) →
    Leads t links (FileTree.behind b target) (FileTree.names target) l n → t.find? l = t'.find? l

/-- That no jar found in one tree is hidden there, and each is found in the other tree too unless it
is hidden there, or is a link to an ignore file that they differ in. -/
def Covered (t t' : FileTree) (dir : String) (base : Location) (js js' : List (List String)) :
    Prop :=
  ∀ names ∈ js, ¬ Hidden ⟨t, dir, base⟩ names ∧
    (names ∈ js' ∨ Hidden ⟨t', dir, base⟩ names ∨ LeadsToChange t t' (pathOf dir names))

variable {t t' : FileTree} {dir name : String} {base l : Location} {names : List String} {n : Node}
  {js js' : List (List String)}

theorem IsIgnoreFile.called (h : IsIgnoreFile l) :
    ∃ name ∈ [ignoreFile, ".gitignore", "exclude"], l.getLast? = some name := by
  rcases h with h | h | ⟨front, rfl⟩
  · exact ⟨_, by simp, h⟩
  · exact ⟨_, by simp, h⟩
  · exact ⟨"exclude", by simp, by simp⟩

theorem not_isIgnoreFile_of_calledJar (base : Location) (h : CalledJar names) :
    ¬ IsIgnoreFile (base ++ names) := by
  obtain ⟨above, stem, -, rfl⟩ := h
  intro hi
  obtain ⟨name, hname, hlast⟩ := hi.called
  rw [← List.append_assoc, List.getLast?_concat, Option.some.injEq] at hlast
  have last : name.toList.getLast? = some 'r' := by
    rw [← hlast, String.toList_append, List.getLast?_append_of_ne_nil _ (by decide)]
    decide
  have other : ∀ name ∈ [ignoreFile, ".gitignore", "exclude"], name.toList.getLast? ≠ some 'r' := by
    decide
  exact other name hname last

theorem jars_of_perm {w : Walk} {found : List String} (hw : w = ⟨t, dir, base⟩)
    (hd : t.node dir = .ok (base, .directory)) (hs : isStandardInput dir = false)
    (hp : ((w.below.filter (w.isJar w.rulesAbove)).map (pathOf dir)).Perm found)
    (hi : Increasing found) : jars t dir = .ok found := by
  subst hw
  have hj : (Walk.mk t dir base).jars = found := Path.inOrder_of_perm hi hp
  unfold jars
  rw [hd]
  simp [hs, hj]

section Agreement

variable (h : DifferAt IsIgnoreFile t t')

include h

theorem reached_agree (hr : Reached t base names n)
    (hl : t.find? (base ++ names) = t'.find? (base ++ names)) : Reached t' base names n := by
  have hn := hr.found
  rw [reached_iff] at hr ⊢
  exact ⟨fun start hp hs => h.directory (hr.1 start hp hs), hl ▸ hn⟩

theorem isJar_agree (hj : IsJar t dir base names) :
    IsJar t' dir base names ∨ LeadsToChange t t' (pathOf dir names) := by
  obtain ⟨⟨n, reached⟩, called, file⟩ := hj
  obtain ⟨l, content, hn⟩ := FileTree.isFile_iff.mp file
  by_cases hl : t.find? l = t'.find? l
  · have hentry := h.eq_of_not_place (not_isIgnoreFile_of_calledJar base called)
    refine .inl ⟨⟨n, reached_agree h reached hentry⟩, called, ?_⟩
    exact FileTree.isFile_iff.mpr ⟨l, content, h.node hn hl⟩
  · exact .inr ⟨l, _, hn, h.place l hl, hl⟩

theorem node_directory_agree (hd : t.node dir = .ok (base, .directory)) :
    t'.node dir = .ok (base, .directory) := by
  have found := (FileTree.node_eq_ok.mp hd).2.found
  exact h.node hd (found.trans (h.directory found).symm)

theorem covered_of_finds (hf : Finds t dir base js) (hf' : Finds t' dir base js') :
    Covered t t' dir base js js' := by
  intro names hn
  obtain ⟨jar, shown⟩ := (hf.mem names).mp hn
  refine ⟨shown, ?_⟩
  rcases isJar_agree h jar with jar' | leads
  · by_cases hidden : Hidden ⟨t', dir, base⟩ names
    · exact .inr (.inl hidden)
    · exact .inl ((hf'.mem names).mpr ⟨jar', hidden⟩)
  · exact .inr (.inr leads)

theorem rulesIn_agree (own : ∀ l, l.getLast? = some ignoreFile → t.find? l = t'.find? l)
    (hu : LinksAgree t t') {r : Ignore.Rules} (hr : rulesIn t dir = some r) :
    rulesIn t' dir = some r := by
  obtain ⟨l, content, hn, rfl⟩ := rulesIn_eq_some.mp hr
  refine rulesIn_eq_some.mpr ⟨l, content, h.node hn ?_, rfl⟩
  have leads := (FileTree.node_eq_ok.mp hn).2
  rw [FileTree.names_join dir (by decide)] at leads
  rcases leads.last (by decide) (by decide) with ⟨b, rfl⟩ | ⟨links, b, target, link, behind⟩
  · exact own _ (by simp)
  · exact hu b _ target links l _ link behind

end Agreement

theorem isIgnored_congr (hr : ∀ d, rulesIn t d = rulesIn t' d)
    (hd : ∀ l, t.find? l = some .directory ↔ t'.find? l = some .directory) :
    (Walk.mk t dir base).isIgnored (Walk.mk t dir base).rulesAbove names =
      (Walk.mk t' dir base).isIgnored (Walk.mk t' dir base).rulesAbove names := by
  unfold Walk.isIgnored Walk.rulesInside Walk.rulesAbove Walk.isDirectoryAt
  simp only [hr, hd]

theorem hidden_congr (hr : ∀ d, rulesIn t d = rulesIn t' d)
    (hd : ∀ l, t.find? l = some .directory ↔ t'.find? l = some .directory) :
    Hidden ⟨t, dir, base⟩ names ↔ Hidden ⟨t', dir, base⟩ names := by
  unfold Hidden
  simp only [isIgnored_congr hr hd]

theorem LinksAgree.jar (hu : LinksAgree t t') (h : DifferAt IsIgnoreFile t t')
    (called : CalledJar names) (hn : ∀ s ∈ names, IsName s) :
    ¬ LeadsToChange t t' (pathOf dir names) := by
  obtain ⟨above, stem, hs, rfl⟩ := called
  have isName : IsName (stem ++ ".jar") := hn _ (by simp)
  rintro ⟨l, n, hnode, -, hl⟩
  have leads := (FileTree.node_eq_ok.mp hnode).2
  rw [pathOf_snoc, FileTree.names_join _ isName] at leads
  rcases leads.last isName.not_idle isName.not_up with ⟨b, rfl⟩ | ⟨links, b, target, link, behind⟩
  · exact hl (h.eq_of_not_place (not_isIgnoreFile_of_calledJar b ⟨[], stem, hs, rfl⟩))
  · exact hl (hu b _ target links l n link behind)

theorem LinksAgree.isJar (hu : LinksAgree t t') (h : DifferAt IsIgnoreFile t t') (named : t.Named)
    (hj : IsJar t dir base names) : IsJar t' dir base names := by
  obtain ⟨n, reached⟩ := hj.reached
  exact (isJar_agree h hj).resolve_right (hu.jar h hj.called (reached.isName named))

theorem isDirectory_agree (h : DifferAt IsIgnoreFile t t') (dir : String) :
    t.isDirectory dir = t'.isDirectory dir := by
  rw [Bool.eq_iff_iff, FileTree.isDirectory_iff, FileTree.isDirectory_iff]
  exact ⟨fun ⟨l, hd⟩ => ⟨l, node_directory_agree h hd⟩,
    fun ⟨l, hd⟩ => ⟨l, node_directory_agree h.symm hd⟩⟩

theorem jars_agree (h : DifferAt IsIgnoreFile t t') (named : t.Named) (named' : t'.Named)
    (own : ∀ l, l.getLast? = some ignoreFile → t.find? l = t'.find? l)
    (hu : LinksAgree t t') (hu' : LinksAgree t' t) (dir : String) : jars t dir = jars t' dir := by
  by_cases hdir : t.isDirectory dir
  · obtain ⟨base, hd⟩ := FileTree.isDirectory_iff.mp hdir
    have hd' := node_directory_agree h hd
    by_cases hs : isStandardInput dir
    · rw [jars_standardInput hd hs, jars_standardInput hd' hs]
    · have rules : ∀ d, rulesIn t d = rulesIn t' d := by
        intro d
        apply Option.ext
        intro r
        exact ⟨rulesIn_agree h own hu, rulesIn_agree h.symm (fun l hl => (own l hl).symm) hu'⟩
      have directories : ∀ l, t.find? l = some .directory ↔ t'.find? l = some .directory :=
        fun l => ⟨h.directory, h.symm.directory⟩
      obtain ⟨js, finds, hjars⟩ := jars_finds named hd (by simpa using hs)
      obtain ⟨js', finds', hjars'⟩ := jars_finds named' hd' (by simpa using hs)
      have same : Finds t' dir base js := by
        refine ⟨finds.increasing, fun names => ?_⟩
        rw [finds.mem, hidden_congr rules directories]
        exact and_congr_left fun _ => ⟨hu.isJar h named, hu'.isJar h.symm named'⟩
      rw [hjars, hjars', same.unique finds']
  · have hdir' := hdir
    rw [isDirectory_agree h] at hdir'
    rw [jars_eq_error.mpr ⟨rfl, by simpa using hdir⟩, jars_eq_error.mpr ⟨rfl, by simpa using hdir'⟩]

/-- Trees that differ in ignore files fail for the same directories. In the others each has the jars
of the other, but for those its own ignore files hide, and for links to ignore files. What only
git ignores makes no difference. -/
theorem ignore_files_hide (t t' : FileTree) (h : DifferAt IsIgnoreFile t t') (named : t.Named)
    (named' : t'.Named) (dir : String) :
    (∀ e, jars t dir = .error e ↔ jars t' dir = .error e) ∧
    (∀ base, t.node dir = .ok (base, .directory) → ∃ js js' : List (List String),
      jars t dir = .ok (js.map (pathOf dir)) ∧ jars t' dir = .ok (js'.map (pathOf dir)) ∧
      js.Pairwise (· < ·) ∧ js'.Pairwise (· < ·) ∧
      Covered t t' dir base js js' ∧ Covered t' t dir base js' js) ∧
    ((∀ l, l.getLast? = some ignoreFile → t.find? l = t'.find? l) → LinksAgree t t' →
      LinksAgree t' t → jars t dir = jars t' dir) := by
  refine ⟨?_, ?_, fun own hu hu' => jars_agree h named named' own hu hu' dir⟩
  · intro e
    rw [jars_eq_error, jars_eq_error, isDirectory_agree h]
  · intro base hd
    have hd' := node_directory_agree h hd
    by_cases hs : isStandardInput dir
    · refine ⟨[], [], jars_standardInput hd hs, jars_standardInput hd' hs, .nil, .nil, ?_, ?_⟩
      · intro names hn
        cases hn
      · intro names hn
        cases hn
    · obtain ⟨js, finds, hjars⟩ := jars_finds named hd (by simpa using hs)
      obtain ⟨js', finds', hjars'⟩ := jars_finds named' hd' (by simpa using hs)
      exact ⟨js, js', hjars, hjars', finds.increasing, finds'.increasing,
        covered_of_finds h finds finds', covered_of_finds h.symm finds' finds⟩

def isLink : Node → Bool
  | .link _ => true
  | _ => false

theorem linksAgree_of_absent (h : ∀ e ∈ t.nodes, isLink e.2 = false) : LinksAgree t t' := by
  intro b name target links l n hl
  cases h _ ((FileTree.find?_eq_some (by simp)).mp hl)

def plainTree : FileTree where
  home := []
  nodes := [(["d"], .directory), (["d", "a.jar"], .file []), (["d", "b.jar"], .file [])]
  nodup := by decide

def ignoringTree (name : String) : FileTree :=
  plainTree.put ["d", name] (.file (utf8Bytes "a.jar\n"))

theorem ignoringTree_differs (name : String) (hn : IsIgnoreFile ["d", name])
    (hf : plainTree.find? ["d", name] = none) :
    DifferAt IsIgnoreFile plainTree (ignoringTree name) :=
  FileTree.differAt_put (by simp) hn (by rw [hf]; exact FileTree.isLoose_none) _

/-- The walker's own ignore file hides the jar, and git's does not. -/
theorem ignore_files_hide_sample :
    Hidden ⟨ignoringTree ignoreFile, "d", ["d"]⟩ ["a.jar"] ∧
    (∃ js js' : List (List String), jars plainTree "d" = .ok (js.map (pathOf "d")) ∧
      jars (ignoringTree ignoreFile) "d" = .ok (js'.map (pathOf "d")) ∧
      Covered plainTree (ignoringTree ignoreFile) "d" ["d"] js js') ∧
    jars plainTree "d" = jars (ignoringTree ".gitignore") "d" := by
  have own := ignore_files_hide plainTree (ignoringTree ignoreFile)
    (ignoringTree_differs _ (by decide) (by decide)) (by decide +kernel) (by decide +kernel) "d"
  have git := ignore_files_hide plainTree (ignoringTree ".gitignore")
    (ignoringTree_differs _ (by decide) (by decide)) (by decide +kernel) (by decide +kernel) "d"
  obtain ⟨js, js', hjars, hjars', -, -, covered, -⟩ := own.2.1 ["d"] (by decide +kernel)
  refine ⟨⟨["a.jar"], by simp, List.prefix_refl _, by decide +kernel⟩,
    ⟨js, js', hjars, hjars', covered⟩, git.2.2 ?_ ?_ ?_⟩
  · intro l hl
    unfold ignoringTree
    rw [FileTree.find?_put (by simp), if_neg]
    rintro rfl
    exact absurd hl (by decide)
  · exact linksAgree_of_absent (by decide)
  · exact linksAgree_of_absent (by decide)

theorem ignored_jar_missing :
    DifferAt IsIgnoreFile plainTree (ignoringTree ignoreFile) ∧
    jars plainTree "d" = .ok ["d/a.jar", "d/b.jar"] ∧
    jars (ignoringTree ignoreFile) "d" = .ok ["d/b.jar"] ∧
    ¬ ∀ t t', DifferAt IsIgnoreFile t t' → t.Named → t'.Named →
      ∀ dir, jars t dir = jars t' dir := by
  have differ := ignoringTree_differs ignoreFile (by decide) (by decide)
  have all : jars plainTree "d" = .ok ["d/a.jar", "d/b.jar"] := by
    apply jars_of_perm (w := ⟨plainTree, "d", ["d"]⟩) rfl (by decide +kernel) (by decide +kernel)
    · decide +kernel
    · unfold Increasing
      decide +kernel
  have kept : jars (ignoringTree ignoreFile) "d" = .ok ["d/b.jar"] := by
    apply jars_of_perm (w := ⟨ignoringTree ignoreFile, "d", ["d"]⟩) rfl (by decide +kernel)
      (by decide +kernel)
    · decide +kernel
    · unfold Increasing
      decide +kernel
  refine ⟨differ, all, kept, ?_⟩
  intro h
  have same := h _ _ differ (by decide +kernel) (by decide +kernel) "d"
  rw [all, kept] at same
  exact absurd same (by decide)

end JarIndex.Discovery
