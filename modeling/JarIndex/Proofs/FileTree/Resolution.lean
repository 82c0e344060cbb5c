import JarIndex.FileTree.Access
import JarIndex.Proofs.Path.Joined
import Mathlib.Data.List.Induction

/-!
# What a path leads to

Names lead from node to node by steps that pass no link; a link is passed by walking
the names of its target instead, of which at most a given number may be. Resolving a
path finds a node exactly if its names lead there. What a path leads to is then an
entry of what the path before the last name leads to, unless a link is passed last.
-/

set_option autoImplicit false

namespace JarIndex.FileTree

open JarIndex.Path (IsName isAbsolute isIdle join segments)

structure IsPlain (name : String) : Prop where
  not_idle : isIdle name = false
  not_up : name ≠ ".."
  short : name.utf8ByteSize ≤ maxName

/-- That a name leads from a directory to a place where no link is. -/
inductive Step (t : FileTree) : Location → String → Location → Prop
  | stay {loc : Location} {name : String} : t.find? loc = some .directory → isIdle name →
      Step t loc name loc
  | up {loc : Location} : t.find? loc = some .directory → Step t loc ".." loc.dropLast
  | down {loc : Location} {name : String} {n : Node} : t.find? loc = some .directory →
      IsPlain name → t.find? (loc ++ [name]) = some n → (∀ target, n ≠ .link target) →
        Step t loc name (loc ++ [name])

inductive Walks (t : FileTree) : Location → List String → Location → Prop
  | nil {loc : Location} : Walks t loc [] loc
  | cons {loc next l : Location} {name : String} {rest : List String} : Step t loc name next →
      Walks t next rest l → Walks t loc (name :: rest) l

structure LinkAt (t : FileTree) (loc : Location) (name target : String) : Prop where
  directory : t.find? loc = some .directory
  plain : IsPlain name
  link : t.find? (loc ++ [name]) = some (.link target)

def behind (loc : Location) (target : String) : Location := if isAbsolute target then [] else loc

/-- That names lead to a node behind at most `links` links. -/
inductive Leads (t : FileTree) : Nat → Location → List String → Location → Node → Prop
  | here {links : Nat} {loc l : Location} {ns : List String} {n : Node} : Walks t loc ns l →
      t.find? l = some n → Leads t links loc ns l n
  | link {links : Nat} {loc b l : Location} {front rest : List String} {name target : String}
      {n : Node} : Walks t loc front b → LinkAt t b name target →
        Leads t links (behind b target) (names target ++ rest) l n →
          Leads t (links + 1) loc (front ++ name :: rest) l n

structure Openable (path : String) : Prop where
  no_nul : '\x00' ∉ path.toList
  nonempty : path ≠ ""
  short : path.utf8ByteSize ≤ maxPath

variable {t : FileTree} {loc b l : Location} {n m : Node} {ns ms front rest : List String}
  {name target dir path : String} {links : Nat}

theorem isPlain_of_isName (h : IsName name) : IsPlain name := ⟨h.not_idle, h.not_up, h.short⟩

theorem Walks.append (h : Walks t loc ns b) (h' : Walks t b ms l) : Walks t loc (ns ++ ms) l := by
  induction h with
  | nil => exact h'
  | cons step _ ih => exact .cons step (ih h')

theorem Leads.found (h : Leads t links loc ns l n) : t.find? l = some n := by
  induction h with
  | here _ found => exact found
  | link _ _ _ ih => exact ih

theorem Leads.append (h : Leads t links loc ns b m) (hw : Walks t b ms l)
    (hn : t.find? l = some n) : Leads t links loc (ns ++ ms) l n := by
  induction h with
  | here walks _ => exact .here (walks.append hw) hn
  | @link _ _ _ _ front rest name _ _ walks link _ ih =>
    rw [List.append_assoc, List.cons_append]
    apply Leads.link walks link
    rw [← List.append_assoc]
    exact ih hw

section Advance

theorem advance_stay (hd : t.find? loc = some .directory) (hi : isIdle name) :
    t.advance .follow loc (name :: rest) = t.advance .follow loc rest := by
  rw [advance, hd]
  simp [hi]

theorem advance_up (hd : t.find? loc = some .directory) :
    t.advance .follow loc (".." :: rest) = t.advance .follow loc.dropLast rest := by
  rw [advance, hd]
  simp [isIdle]

theorem advance_down (hd : t.find? loc = some .directory) (hp : IsPlain name)
    (hn : t.find? (loc ++ [name]) = some n) (hl : ∀ target, n ≠ .link target) :
    t.advance .follow loc (name :: rest) = t.advance .follow (loc ++ [name]) rest := by
  have hs := hp.short
  rw [advance, hd]
  simp only [hp.not_idle, hp.not_up, hn, Nat.not_lt.mpr hs]
  cases n with
  | link target => exact absurd rfl (hl target)
  | _ => simp

theorem advance_link (h : LinkAt t loc name target) :
    t.advance .follow loc (name :: rest) = .jump loc target rest := by
  have hs := h.plain.short
  rw [advance, h.directory]
  simp [h.plain.not_idle, h.plain.not_up, h.link, Nat.not_lt.mpr hs]

theorem advance_walks (h : Walks t loc ns l) (rest : List String) :
    t.advance .follow loc (ns ++ rest) = t.advance .follow l rest := by
  induction h with
  | nil => rfl
  | cons step _ ih =>
    cases step with
    | stay hd hi => rw [List.cons_append, advance_stay hd hi, ih]
    | up hd => rw [List.cons_append, advance_up hd, ih]
    | down hd hp hn hl => rw [List.cons_append, advance_down hd hp hn hl, ih]

def Stops (t : FileTree) (loc : Location) (ns : List String) : Stop → Prop
  | .present l n => Walks t loc ns l ∧ t.find? l = some n
  | .jump b target rest => ∃ front name, ns = front ++ name :: rest ∧ Walks t loc front b ∧
      LinkAt t b name target
  | _ => True

theorem Stops.cons {next : Location} {s : Stop} (h : Step t loc name next)
    (hs : Stops t next rest s) : Stops t loc (name :: rest) s := by
  cases s with
  | present l n => exact ⟨.cons h hs.1, hs.2⟩
  | absent l => trivial
  | fault f => trivial
  | jump b target rest' =>
    obtain ⟨front, name', rfl, walks, link⟩ := hs
    exact ⟨name :: front, name', rfl, .cons h walks, link⟩

theorem stops_advance (t : FileTree) (loc : Location) (ns : List String) :
    Stops t loc ns (t.advance .follow loc ns) := by
  induction ns generalizing loc with
  | nil =>
    rw [advance]
    cases hf : t.find? loc with
    | none => trivial
    | some n => exact ⟨.nil, hf⟩
  | cons name rest ih =>
    rw [advance]
    split
    · rename_i hd
      split
      · rename_i hi
        exact (ih loc).cons (.stay hd hi)
      split
      · rename_i hu
        subst hu
        exact (ih loc.dropLast).cons (.up hd)
      split
      · trivial
      split
      · trivial
      rename_i hi hu _ hs
      have plain : IsPlain name := ⟨by simpa using hi, hu, by omega⟩
      dsimp only
      split
      · split <;> trivial
      · rename_i target hl
        rw [if_neg (by simp)]
        exact ⟨[], name, rfl, .nil, hd, plain, hl⟩
      · rename_i n hl hn
        exact (ih (loc ++ [name])).cons (.down hd plain hn hl)
    · trivial
    · trivial

end Advance

theorem resolveFrom_iff :
    t.resolveFrom .follow links loc ns = .ok (.present l n) ↔ Leads t links loc ns l n := by
  constructor
  · intro h
    induction links generalizing loc ns with
    | zero =>
      have hs := stops_advance t loc ns
      rw [resolveFrom] at h
      split at h
      · rename_i heq
        rw [heq] at hs
        cases h
        exact .here hs.1 hs.2
      · cases h
      · cases h
      · cases h
    | succ links ih =>
      have hs := stops_advance t loc ns
      rw [resolveFrom] at h
      split at h
      · rename_i heq
        rw [heq] at hs
        cases h
        exact .here hs.1 hs.2
      · cases h
      · cases h
      · rename_i heq
        rw [heq] at hs
        obtain ⟨front, name, rfl, walks, link⟩ := hs
        exact .link walks link (ih h)
  · intro h
    induction h with
    | here walks found =>
      have hp := advance_walks walks []
      rw [List.append_nil, advance, found] at hp
      cases links <;> rw [resolveFrom, hp]
    | link walks link _ ih =>
      rw [resolveFrom, advance_walks walks, advance_link link]
      exact ih

theorem node_eq_ok : t.node path = .ok (l, n) ↔
    Openable path ∧ Leads t maxLinks (t.start path) (names path) l n := by
  rw [← resolveFrom_iff]
  unfold node resolve
  constructor
  · intro h
    split at h
    · rename_i hr
      cases h
      split at hr
      · cases hr
      split at hr
      · cases hr
      split at hr
      · cases hr
      rename_i hn he hs
      exact ⟨⟨by simpa using hn, he, by omega⟩, hr⟩
    · cases h
    · cases h
  · rintro ⟨ho, hr⟩
    have hs := ho.short
    rw [if_neg (by simpa using ho.no_nul), if_neg ho.nonempty, if_neg (by omega), hr]

theorem isDirectory_iff : t.isDirectory path ↔ ∃ l, t.node path = .ok (l, .directory) := by
  unfold isDirectory
  split <;> simp_all

theorem isFile_iff : t.isFile path ↔ ∃ l content, t.node path = .ok (l, .file content) := by
  unfold isFile
  split <;> simp_all

theorem read_eq_ok {content : Bytes} :
    t.read path = .ok content ↔ ∃ l, t.node path = .ok (l, .file content) := by
  unfold read openNode
  cases t.node path with
  | error f => simp
  | ok found =>
    obtain ⟨l, n⟩ := found
    cases n <;> simp

section Join

/-- The names in a path. -/
def solid (path : String) : List String := (segments path).filter (· ≠ "")

theorem names_cases (path : String) :
    names path = solid path ∨ names path = solid path ++ [""] := by
  unfold names solid
  dsimp only
  split
  · exact .inr rfl
  · exact .inl rfl

theorem names_join (dir : String) (h : IsName name) :
    names (join dir name) = solid dir ++ [name] := by
  obtain ⟨segs, -, hj, hs⟩ := Path.segments_join dir h
  have hsolid : solid dir = segs.filter (· ≠ "") := by
    unfold solid
    rcases hs with hs | hs <;> simp [hs]
  have hopen : (join dir name).toList.getLast? ≠ some '/' := by
    rw [Path.getLast?_join dir h]
    intro he
    exact h.no_slash (List.mem_of_getLast? he)
  unfold names
  simp [hopen, hj, hsolid, h.nonempty]

theorem snoc_cases {x : String} (h : front ++ name :: rest = ns ++ [x]) :
    (rest = [] ∧ name = x) ∨ ∃ r, rest = r ++ [x] ∧ ns = front ++ name :: r := by
  rcases List.eq_nil_or_concat rest with rfl | ⟨r, y, rfl⟩
  · exact .inl ⟨rfl, List.head_eq_of_cons_eq (List.append_inj' h rfl).2⟩
  · rw [List.concat_eq_append] at h ⊢
    have h' : (front ++ name :: r) ++ [y] = ns ++ [x] := by simpa using h
    obtain ⟨hns, hy⟩ := List.append_inj' h' rfl
    cases hy
    exact .inr ⟨r, rfl, hns.symm⟩

theorem Walks.split (h : Walks t loc (ns ++ ms) l) : ∃ b, Walks t loc ns b ∧ Walks t b ms l := by
  induction ns generalizing loc with
  | nil => exact ⟨loc, .nil, h⟩
  | cons name rest ih =>
    cases h with
    | cons step walks =>
      obtain ⟨b, hb, hl⟩ := ih walks
      exact ⟨b, .cons step hb, hl⟩

theorem Walks.single (h : Walks t loc [name] l) : Step t loc name l := by
  cases h with
  | cons step walks =>
    cases walks
    exact step

theorem Step.stays (h : Step t loc name l) (hi : isIdle name) : l = loc := by
  cases h with
  | stay => rfl
  | up => exact absurd hi (by decide)
  | down _ plain => exact absurd hi (by simp [plain.not_idle])

theorem Leads.trim (h : Leads t links loc (ns ++ [""]) l n) : Leads t links loc ns l n := by
  generalize hms : ns ++ [""] = ms at h
  induction h generalizing ns with
  | here walks found =>
    subst hms
    obtain ⟨b, hb, hl⟩ := walks.split
    rw [hl.single.stays rfl] at found ⊢
    exact .here hb found
  | link walks link _ ih =>
    rcases snoc_cases hms.symm with ⟨-, rfl⟩ | ⟨r, rfl, rfl⟩
    · exact absurd link.plain.not_idle (by decide)
    · exact .link walks link (ih (by simp))

theorem Leads.last (h : Leads t links loc (ns ++ [name]) l n) (hi : isIdle name = false)
    (hu : name ≠ "..") :
    (∃ b, l = b ++ [name]) ∨ ∃ links b target, t.find? (b ++ [name]) = some (.link target) ∧
      Leads t links (behind b target) (names target) l n := by
  generalize hms : ns ++ [name] = ms at h
  -- a link passed before the last name leaves the name at the end of what is still to be walked
  induction h generalizing ns with
  | here walks found =>
    subst hms
    obtain ⟨b, hb, hl⟩ := walks.split
    have step := hl.single
    cases step with
    | stay _ idle => exact absurd idle (by simp [hi])
    | up => exact absurd rfl hu
    | down => exact .inl ⟨b, rfl⟩
  | @link links _ b l _ _ s target n walks link leads ih =>
    rcases snoc_cases hms.symm with ⟨rfl, rfl⟩ | ⟨r, rfl, rfl⟩
    · rw [List.append_nil] at leads
      exact .inr ⟨links, b, target, link.link, leads⟩
    · exact ih (List.append_assoc _ _ _)

theorem node_join (hd : t.node dir = .ok (b, .directory)) (h : IsName name)
    (hn : t.find? (b ++ [name]) = some n) (hl : ∀ target, n ≠ .link target)
    (hs : (join dir name).utf8ByteSize ≤ maxPath) :
    t.node (join dir name) = .ok (b ++ [name], n) := by
  obtain ⟨ho, leads⟩ := node_eq_ok.mp hd
  have solid : Leads t maxLinks (t.start dir) (solid dir) b .directory := by
    rcases names_cases dir with he | he
    · rwa [he] at leads
    · rw [he] at leads
      exact leads.trim
  have step : Step t b name (b ++ [name]) := .down leads.found (isPlain_of_isName h) hn hl
  rw [node_eq_ok]
  refine ⟨⟨?_, Path.join_ne_empty dir name, hs⟩, ?_⟩
  · rw [Path.mem_join (by decide)]
    exact not_or.mpr ⟨ho.no_nul, h.no_nul⟩
  · rw [names_join dir h, start, Path.isAbsolute_join name ho.nonempty]
    exact solid.append (.cons step .nil) hn

end Join

/-- That the names of all nodes are such as a directory can have. -/
def Named (t : FileTree) : Prop := ∀ e ∈ t.nodes, ∀ s ∈ e.1, IsName s

instance (t : FileTree) : Decidable t.Named := inferInstanceAs (Decidable (∀ _ ∈ _, _))

theorem find?_eq_some (h : l ≠ []) : t.find? l = some n ↔ (l, n) ∈ t.nodes := by
  unfold find?
  rw [if_neg h, List.lookup_eq_some_iff]
  constructor
  · rintro ⟨before, after, he, -⟩
    simp [he]
  · intro hm
    obtain ⟨before, after, he⟩ := List.append_of_mem hm
    refine ⟨before, after, he, ?_⟩
    intro e hb
    have nodup := t.nodup
    rw [he, List.map_append, List.nodup_append] at nodup
    have hne := nodup.2.2 e.1 (List.mem_map_of_mem hb) l (by simp)
    simpa using Ne.symm hne

theorem Named.isName (h : t.Named) (hn : t.find? l = some n) : ∀ s ∈ l, IsName s := by
  by_cases hl : l = []
  · simp [hl]
  · exact h (l, n) ((find?_eq_some hl).mp hn)

end JarIndex.FileTree
