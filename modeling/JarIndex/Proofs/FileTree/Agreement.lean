import JarIndex.Proofs.FileTree.Resolution

/-!
# Trees that differ in files

Two trees may have different files in some places, or a file where the other has
nothing. Directories and links are then the same in both, and so a path leads to the
same place in both, unless it is one of those.
-/

set_option autoImplicit false

namespace JarIndex.FileTree

def IsLoose (o : Option Node) : Prop := ∀ n, o = some n → ∃ content, n = .file content

/-- That trees differ only in files, and only in places with a property. -/
structure DifferAt (P : Location → Prop) (t t' : FileTree) : Prop where
  home : t.home = t'.home
  place : ∀ l, t.find? l ≠ t'.find? l → P l
  left : ∀ l, t.find? l ≠ t'.find? l → IsLoose (t.find? l)
  right : ∀ l, t.find? l ≠ t'.find? l → IsLoose (t'.find? l)

theorem isLoose_none : IsLoose none := nofun

variable {P : Location → Prop} {t t' : FileTree} {loc b l : Location} {n : Node}
  {ns : List String} {name target path : String} {links : Nat}

theorem DifferAt.symm (h : DifferAt P t t') : DifferAt P t' t where
  home := h.home.symm
  place l hl := h.place l (Ne.symm hl)
  left l hl := h.right l (Ne.symm hl)
  right l hl := h.left l (Ne.symm hl)

theorem DifferAt.eq_of_not_place (h : DifferAt P t t') (hl : ¬ P l) : t.find? l = t'.find? l :=
  Classical.byContradiction fun hne => hl (h.place l hne)

theorem DifferAt.find? (h : DifferAt P t t') (hn : t.find? l = some n)
    (hf : ∀ content, n ≠ .file content) : t'.find? l = some n := by
  by_cases he : t.find? l = t'.find? l
  · rw [← he, hn]
  · obtain ⟨content, hc⟩ := h.left l he n hn
    exact absurd hc (hf content)

theorem DifferAt.directory (h : DifferAt P t t') (hd : t.find? l = some .directory) :
    t'.find? l = some .directory := h.find? hd (by simp)

theorem Step.directory (h : Step t loc name l) : t.find? loc = some .directory := by
  cases h with
  | stay hd => exact hd
  | up hd => exact hd
  | down hd => exact hd

theorem Step.agree (h : DifferAt P t t') (hs : Step t loc name l) (hl : t.find? l = t'.find? l) :
    Step t' loc name l := by
  cases hs with
  | stay hd hi => exact .stay (h.directory hd) hi
  | up hd => exact .up (h.directory hd)
  | down hd plain hn hl' => exact .down (h.directory hd) plain (hl ▸ hn) hl'

theorem Walks.agree (h : DifferAt P t t') (hw : Walks t loc ns l)
    (hl : t.find? l = t'.find? l) : Walks t' loc ns l := by
  induction hw with
  | nil => exact .nil
  | cons step rest ih =>
    refine .cons (step.agree h ?_) (ih hl)
    cases rest with
    | nil => exact hl
    | cons step' => rw [step'.directory, h.directory step'.directory]

theorem LinkAt.agree (h : DifferAt P t t') (hl : LinkAt t loc name target) :
    LinkAt t' loc name target :=
  ⟨h.directory hl.directory, hl.plain, h.find? hl.link (by simp)⟩

theorem Leads.agree (h : DifferAt P t t') (hn : Leads t links loc ns l n)
    (hl : t.find? l = t'.find? l) : Leads t' links loc ns l n := by
  induction hn with
  | here walks found => exact .here (walks.agree h hl) (hl ▸ found)
  | link walks link _ ih =>
    have hb := link.directory
    exact .link (walks.agree h (hb.trans (h.directory hb).symm)) (link.agree h) (ih hl)

/-- A path leads to the same place in both trees, unless they differ there. -/
theorem DifferAt.node (h : DifferAt P t t') (hn : t.node path = .ok (l, n))
    (hl : t.find? l = t'.find? l) : t'.node path = .ok (l, n) := by
  obtain ⟨openable, leads⟩ := node_eq_ok.mp hn
  refine node_eq_ok.mpr ⟨openable, ?_⟩
  have hs : t'.start path = t.start path := by
    unfold start
    rw [h.home]
  rw [hs]
  exact leads.agree h hl

theorem find?_put (hb : b ≠ []) : (t.put b n).find? l = if l = b then some n else t.find? l := by
  by_cases hl : l = []
  · rw [hl, if_neg hb.symm]
    rfl
  · apply Option.ext
    intro m
    rw [find?_eq_some hl]
    unfold put
    by_cases he : l = b
    · simp [he, eq_comm]
    · simp [he, find?_eq_some hl]

theorem differAt_put (hb : b ≠ []) (hP : P b) (hl : IsLoose (t.find? b)) (content : Bytes) :
    DifferAt P t (t.put b (.file content)) := by
  have only : ∀ l, t.find? l ≠ (t.put b (.file content)).find? l → l = b := by
    intro l hne
    by_contra hlb
    rw [find?_put hb, if_neg hlb] at hne
    exact hne rfl
  refine ⟨rfl, ?_, ?_, ?_⟩
  · intro l hne
    rw [only l hne]
    exact hP
  · intro l hne
    rw [only l hne]
    exact hl
  · intro l hne n hn
    rw [only l hne, find?_put hb, if_pos rfl] at hn
    cases hn
    exact ⟨content, rfl⟩

end JarIndex.FileTree
