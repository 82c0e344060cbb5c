import JarIndex.Discovery
import JarIndex.Proofs.FileTree.Resolution
import JarIndex.Proofs.Path.Order
import Mathlib.Data.List.Sort

/-!
# What a walk finds

A walk comes to what is reached through directories, the given one first. The jars
it gives are the files so reached whose name ends as a jar's does and that no rule
hides, each once, in the order of their names.
-/

set_option autoImplicit false

namespace JarIndex.Discovery

open FileTree (maxPath)
open JarIndex.Path (IsName Increasing before inOrder key)

/-- That names lead from a directory to a node, through directories that are no links. -/
inductive Reached (t : FileTree) (base : Location) : List String → Node → Prop
  | start {n : Node} : t.find? base = some n → Reached t base [] n
  | entry {names : List String} {name : String} {n : Node} : Reached t base names .directory →
      t.find? (base ++ (names ++ [name])) = some n → Reached t base (names ++ [name]) n

def CalledJar (names : List String) : Prop :=
  ∃ above stem, stem ≠ "" ∧ names = above ++ [stem ++ ".jar"]

structure IsJar (t : FileTree) (dir : String) (base : Location) (names : List String) : Prop where
  reached : ∃ n, Reached t base names n
  called : CalledJar names
  file : t.isFile (pathOf dir names)

/-- That rules hide what is at these names, or something it is in. -/
def Hidden (w : Walk) (names : List String) : Prop :=
  ∃ start, start ≠ [] ∧ start <+: names ∧ w.isIgnored w.rulesAbove start

/-- That these are the jars under a directory which no rule hides, in order. -/
structure Finds (t : FileTree) (dir : String) (base : Location) (js : List (List String)) :
    Prop where
  increasing : js.Pairwise (· < ·)
  mem : ∀ names, names ∈ js ↔ IsJar t dir base names ∧ ¬ Hidden ⟨t, dir, base⟩ names

variable {t : FileTree} {dir name : String} {base l : Location} {names ms start : List String}
  {n : Node} {js js' : List (List String)}

theorem Finds.unique (h : Finds t dir base js) (h' : Finds t dir base js') : js = js' := by
  apply h.increasing.eq_of_mem_iff h'.increasing
  intro names
  rw [h.mem, h'.mem]

section PathOf

theorem pathOf_snoc (dir : String) (names : List String) (name : String) :
    pathOf dir (names ++ [name]) = Path.join (pathOf dir names) name := List.foldl_append

theorem pathOf_ne_empty (hd : dir ≠ "") (names : List String) : pathOf dir names ≠ "" := by
  cases names using List.reverseRecOn with
  | nil => exact hd
  | append_singleton names name =>
    rw [pathOf_snoc]
    exact Path.join_ne_empty _ name

theorem size_pathOf_le (dir : String) (h : start <+: names) :
    (pathOf dir start).utf8ByteSize ≤ (pathOf dir names).utf8ByteSize := by
  obtain ⟨rest, rfl⟩ := h
  induction rest using List.reverseRecOn with
  | nil => rw [List.append_nil]
  | append_singleton rest name ih =>
    rw [← List.append_assoc, pathOf_snoc]
    exact ih.trans (Path.size_le_join _ name)

theorem parts_pathOf (hd : dir ≠ "") (hn : ∀ s ∈ names, IsName s) :
    Path.parts (pathOf dir names) = Path.parts dir ++ names.map .name := by
  induction names using List.reverseRecOn with
  | nil => rw [List.map_nil, List.append_nil]; rfl
  | append_singleton names name ih =>
    rw [pathOf_snoc, Path.parts_join (pathOf_ne_empty hd names) (hn name (by simp)),
      ih (fun s hs => hn s (by simp [hs]))]
    simp

def nameKey (s : String) : ℕ ×ₗ String := toLex (3, s)

theorem nameKey_strictMono : StrictMono nameKey := by
  intro a b h
  exact Prod.Lex.toLex_lt_toLex.mpr (.inr ⟨rfl, h⟩)

theorem key_pathOf (hd : dir ≠ "") (hn : ∀ s ∈ names, IsName s) :
    key (pathOf dir names) = key dir ++ names.map nameKey := by
  unfold key
  rw [parts_pathOf hd hn, List.map_append, List.map_map]
  rfl

theorem keys_strictMono (dir : String) :
    StrictMono fun names : List String => key dir ++ names.map nameKey := by
  intro a b h
  exact List.append_left_lt (List.map_lt (fun _ _ => @nameKey_strictMono _ _) h)

theorem before_pathOf (hd : dir ≠ "") (hn : ∀ s ∈ names, IsName s) (hm : ∀ s ∈ ms, IsName s) :
    before (pathOf dir names) (pathOf dir ms) ↔ names < ms := by
  rw [Path.before_iff, key_pathOf hd hn, key_pathOf hd hm]
  exact (keys_strictMono dir).lt_iff_lt

theorem increasing_map (hd : dir ≠ "") (hn : ∀ ns ∈ js, ∀ s ∈ ns, IsName s) :
    Increasing (js.map (pathOf dir)) ↔ js.Pairwise (· < ·) := by
  unfold Increasing
  rw [List.pairwise_map]
  exact List.Pairwise.iff_of_mem fun ha hb => before_pathOf hd (hn _ ha) (hn _ hb)

end PathOf

section Reached

theorem Reached.found (h : Reached t base names n) : t.find? (base ++ names) = some n := by
  cases h with
  | start found => rwa [List.append_nil]
  | entry _ found => exact found

theorem reached_iff : Reached t base names n ↔
    (∀ start, start <+: names → start ≠ names → t.find? (base ++ start) = some .directory) ∧
      t.find? (base ++ names) = some n := by
  constructor
  · intro h
    refine ⟨?_, h.found⟩
    induction h with
    | start =>
      intro start hp hne
      exact absurd (List.prefix_nil.mp hp) hne
    | @entry names _ _ reached _ ih =>
      intro start hp hne
      rcases List.prefix_concat_iff.mp hp with rfl | hp
      · exact absurd rfl hne
      · by_cases he : start = names
        · rw [he]
          exact reached.found
        · exact ih start hp he
  · rintro ⟨above, found⟩
    induction names using List.reverseRecOn generalizing n with
    | nil => exact .start (by simpa using found)
    | append_singleton names name ih =>
      refine .entry (ih ?_ ?_) found
      · intro start hp hne
        apply above start (hp.trans (List.prefix_append _ _))
        rintro rfl
        exact absurd hp.length_le (by simp)
      · exact above names (List.prefix_append _ _) (by simp)

theorem Reached.isName (h : Reached t base names n) (named : t.Named) : ∀ s ∈ names, IsName s :=
  fun s hs => named.isName h.found s (List.mem_append_right _ hs)

theorem Reached.node (h : Reached t base names n) (hd : t.node dir = .ok (base, .directory))
    (named : t.Named) (hl : ∀ target, n ≠ .link target)
    (hs : (pathOf dir names).utf8ByteSize ≤ maxPath) :
    t.node (pathOf dir names) = .ok (base ++ names, n) := by
  induction h with
  | start found =>
    rw [(FileTree.node_eq_ok.mp hd).2.found] at found
    cases found
    rw [List.append_nil]
    exact hd
  | @entry names name n reached found ih =>
    have hname : IsName name := named.isName found name (by simp)
    have above := ih (by simp) ((size_pathOf_le dir (List.prefix_append _ _)).trans hs)
    rw [← List.append_assoc] at found ⊢
    rw [pathOf_snoc] at hs ⊢
    exact FileTree.node_join above hname found hl hs

end Reached

theorem rulesIn_eq_some {r : Ignore.Rules} : rulesIn t dir = some r ↔ ∃ l content,
    t.node (Path.join dir ignoreFile) = .ok (l, .file content) ∧ r = .ofContent dir content := by
  unfold rulesIn
  cases hr : t.read (Path.join dir ignoreFile) with
  | error f =>
    simp only [reduceCtorEq, false_iff, not_exists, not_and]
    intro l content hn
    rw [FileTree.read_eq_ok.mpr ⟨l, hn⟩] at hr
    cases hr
  | ok content =>
    obtain ⟨l, hn⟩ := FileTree.read_eq_ok.mp hr
    simp [hn, eq_comm]

section Found

variable {w : Walk}

theorem mem_properStarts {α : Type} {start l : List α} :
    start ∈ properStarts l ↔ start <+: l ∧ start ≠ l := by
  unfold properStarts
  rw [List.mem_map]
  constructor
  · rintro ⟨k, hk, rfl⟩
    have hlt : k < l.length := by simpa using hk
    refine ⟨List.take_prefix k l, ?_⟩
    intro he
    have hlen := congrArg List.length he
    rw [List.length_take] at hlen
    omega
  · rintro ⟨hp, hne⟩
    refine ⟨start.length, ?_, (List.prefix_iff_eq_take.mp hp).symm⟩
    have hlt : start.length < l.length := by
      apply lt_of_le_of_ne hp.length_le
      intro he
      exact hne (hp.eq_of_length he)
    simpa using hlt

instance (t : FileTree) (base : Location) (names : List String) (n : Node) :
    Decidable (Reached t base names n) :=
  decidable_of_iff ((∀ start ∈ properStarts names, t.find? (base ++ start) = some .directory) ∧
      t.find? (base ++ names) = some n)
    (by simp only [reached_iff, mem_properStarts, and_imp])

theorem below_eq (w : Walk) : w.below = (w.tree.nodes.map Prod.fst).filterMap fun l =>
    if w.base.isPrefixOf l then some (l.drop w.base.length) else none := by
  rw [List.filterMap_map]
  rfl

theorem mem_below : names ∈ w.below ↔ ∃ n, (w.base ++ names, n) ∈ w.tree.nodes := by
  rw [below_eq, List.mem_filterMap]
  constructor
  · rintro ⟨l, hl, he⟩
    obtain ⟨⟨_, n⟩, hn, rfl⟩ := List.mem_map.mp hl
    split at he
    · rename_i hp
      obtain ⟨rest, rfl⟩ := List.isPrefixOf_iff_prefix.mp hp
      rw [List.drop_left] at he
      cases he
      exact ⟨n, hn⟩
    · cases he
  · rintro ⟨n, hn⟩
    refine ⟨w.base ++ names, List.mem_map_of_mem hn, ?_⟩
    rw [if_pos (List.isPrefixOf_iff_prefix.mpr (List.prefix_append _ _)), List.drop_left]

theorem nodup_below (w : Walk) : w.below.Nodup := by
  rw [below_eq]
  apply List.Nodup.filterMap _ w.tree.nodup
  intro l l' names hl hl'
  rw [Option.mem_def, Option.ite_none_right_eq_some, Option.some.injEq,
    List.isPrefixOf_iff_prefix] at hl hl'
  obtain ⟨⟨rest, rfl⟩, hd⟩ := hl
  obtain ⟨⟨rest', rfl⟩, hd'⟩ := hl'
  rw [List.drop_left] at hd hd'
  rw [hd, hd']

theorem isVisited_iff {above : List Ignore.Rules} : w.isVisited above names ↔
    ∀ start, start <+: names → start ≠ names → w.tree.find? (w.base ++ start) = some .directory ∧
      (pathOf w.dir start).utf8ByteSize ≤ maxPath ∧ (start = [] ∨ ¬ w.isIgnored above start) := by
  unfold Walk.isVisited Walk.canList Walk.isDirectoryAt
  rw [List.all_eq_true]
  simp only [mem_properStarts, and_imp, Bool.and_eq_true, Bool.or_eq_true, decide_eq_true_eq,
    Bool.not_eq_true', Bool.not_eq_true, and_assoc]

theorem calledJar_iff (hd : dir ≠ "") (hn : ∀ s ∈ names, IsName s) : CalledJar names ↔
    names ≠ [] ∧ Path.extension (pathOf dir names) = some jarExtension := by
  have hj : ∀ stem : String, stem ++ "." ++ jarExtension = stem ++ ".jar" := fun _ =>
    String.append_assoc
  unfold CalledJar
  cases names using List.reverseRecOn with
  | nil => simp
  | append_singleton above name =>
    have hdot : '.' ∉ jarExtension.toList := by decide
    rw [pathOf_snoc, Path.extension_join (pathOf_ne_empty hd above) (hn name (by simp)),
      Path.extensionOfName_eq_some, and_iff_right hdot]
    simp [hj]

theorem mem_jars (named : t.Named) (hd : t.node dir = .ok (base, .directory))
    (hw : w = ⟨t, dir, base⟩) :
    names ∈ w.below.filter (w.isJar w.rulesAbove) ↔ IsJar t dir base names ∧ ¬ Hidden w names := by
  subst hw
  have hne := (FileTree.node_eq_ok.mp hd).1.nonempty
  have entry : ∀ {ns : List String}, ns ≠ [] → base ++ ns ≠ [] := fun h => by simp [h]
  rw [List.mem_filter, mem_below]
  simp only [Walk.isJar, Bool.and_eq_true, isVisited_iff, decide_eq_true_eq, Bool.not_eq_true']
  constructor
  · rintro ⟨⟨n, hn⟩, ⟨⟨⟨hnames, hext⟩, visited⟩, shown⟩, file⟩
    have found := (FileTree.find?_eq_some (entry hnames)).mpr hn
    have reached : Reached t base names n :=
      reached_iff.mpr ⟨fun start hp hs => (visited start hp hs).1, found⟩
    refine ⟨⟨⟨n, reached⟩, (calledJar_iff hne (reached.isName named)).mpr ⟨hnames, hext⟩, file⟩, ?_⟩
    rintro ⟨start, hs, hp, ignored⟩
    by_cases he : start = names
    · rw [he, shown] at ignored
      cases ignored
    · exact (visited start hp he).2.2.elim hs fun h => h ignored
  · rintro ⟨⟨⟨n, reached⟩, called, file⟩, shown⟩
    obtain ⟨hnames, hext⟩ := (calledJar_iff hne (reached.isName named)).mp called
    obtain ⟨l, content, hfile⟩ := FileTree.isFile_iff.mp file
    have hsize := (FileTree.node_eq_ok.mp hfile).1.short
    have visible : ∀ start, start ≠ [] → start <+: names →
        ¬ (Walk.mk t dir base).isIgnored (Walk.mk t dir base).rulesAbove start :=
      fun start hs hp ignored => shown ⟨start, hs, hp, ignored⟩
    refine ⟨⟨n, (FileTree.find?_eq_some (entry hnames)).mp reached.found⟩,
      ⟨⟨⟨hnames, hext⟩, ?_⟩, ?_⟩, file⟩
    · intro start hp he
      refine ⟨(reached_iff.mp reached).1 start hp he, (size_pathOf_le dir hp).trans hsize, ?_⟩
      by_cases hs : start = []
      · exact .inl hs
      · exact .inr (visible start hs hp)
    · exact Bool.eq_false_iff.mpr (visible names hnames (List.prefix_refl names))

theorem Finds.isName (h : Finds t dir base js) (named : t.Named) :
    ∀ ns ∈ js, ∀ s ∈ ns, IsName s := by
  intro ns hn
  obtain ⟨n, reached⟩ := ((h.mem ns).mp hn).1.reached
  exact reached.isName named

def jarNames (w : Walk) : List (List String) :=
  (w.below.filter (w.isJar w.rulesAbove)).mergeSort fun a b =>
    !before (pathOf w.dir b) (pathOf w.dir a)

theorem map_jarNames (w : Walk) : (jarNames w).map (pathOf w.dir) = w.jars := by
  unfold jarNames Walk.jars
  exact List.map_mergeSort fun _ _ _ _ => rfl

theorem finds_jarNames (named : t.Named) (hd : t.node dir = .ok (base, .directory)) :
    Finds t dir base (jarNames ⟨t, dir, base⟩) := by
  have hne := (FileTree.node_eq_ok.mp hd).1.nonempty
  have mem : ∀ ns, ns ∈ jarNames ⟨t, dir, base⟩ ↔
      IsJar t dir base ns ∧ ¬ Hidden ⟨t, dir, base⟩ ns := by
    intro ns
    unfold jarNames
    rw [List.mem_mergeSort]
    exact mem_jars named hd rfl
  have isName : ∀ ns ∈ jarNames ⟨t, dir, base⟩, ∀ s ∈ ns, IsName s := by
    intro ns hn
    obtain ⟨n, reached⟩ := ((mem ns).mp hn).1.reached
    exact reached.isName named
  have increasing : Increasing ((jarNames ⟨t, dir, base⟩).map (pathOf dir)) := by
    rw [map_jarNames ⟨t, dir, base⟩]
    apply Path.increasing_inOrder
    rw [List.map_map]
    apply List.Nodup.map_on _ ((nodup_below _).filter _)
    intro a ha b hb h
    have ha' := isName a (List.mem_mergeSort.mpr ha)
    have hb' := isName b (List.mem_mergeSort.mpr hb)
    rw [Function.comp, Function.comp, key_pathOf hne ha', key_pathOf hne hb'] at h
    exact (keys_strictMono dir).injective h
  exact ⟨(increasing_map hne isName).mp increasing, mem⟩

theorem jars_eq_error {e : NotADirectory} :
    jars t dir = .error e ↔ e = ⟨dir⟩ ∧ t.isDirectory dir = false := by
  rw [← Bool.not_eq_true, FileTree.isDirectory_iff]
  unfold jars
  split
  · rename_i base hd
    simp [hd]
  · rename_i hd
    simp only [Except.error.injEq, eq_comm, iff_self_and, not_exists]
    intro _ base hb
    exact hd base hb.symm

theorem jars_standardInput (hd : t.node dir = .ok (base, .directory)) (hs : isStandardInput dir) :
    jars t dir = .ok [] := by
  unfold jars
  rw [hd]
  simp [hs]

theorem jars_finds (named : t.Named) (hd : t.node dir = .ok (base, .directory))
    (hs : isStandardInput dir = false) :
    ∃ js, Finds t dir base js ∧ jars t dir = .ok (js.map (pathOf dir)) := by
  refine ⟨jarNames ⟨t, dir, base⟩, finds_jarNames named hd, ?_⟩
  unfold jars
  rw [hd, map_jarNames ⟨t, dir, base⟩]
  simp [hs]

end Found

end JarIndex.Discovery
