import JarIndex.Proofs.Extraction.Folding
import JarIndex.Proofs.Mapping.History
import JarIndex.Proofs.Scan.Reordering
import JarIndex.Proofs.Scan.Written
import Mathlib.Data.List.Perm.Basic

/-!
# Extractions in another order

The order of the paths, the order of the entries and the mode of the run decide on
the order of the diagnostics and on the packages, and on nothing else. A package is
the same where all classes of its source file agree on it.
-/

set_option autoImplicit false

namespace JarIndex

open Archive (written)
open Scan (Reorders)

namespace Stats

theorem addScan_comm (s : Stats) (a b : Scan) :
    (s.addScan a).addScan b = (s.addScan b).addScan a := by
  cases ha : a.status <;> cases hb : b.status <;>
    simp [addScan, addStatus, ha, hb, Nat.add_right_comm]

theorem addScan_reorders (s : Stats) {a b : Scan} (h : Reorders a b) :
    s.addScan a = s.addScan b := by
  have hh := (h.headers.filter (·.sourceFile.isSome)).length_eq
  have hd := (h.diagnostics.filter (·.scope = .entry)).length_eq
  unfold addScan
  rw [h.status, h.headers.length_eq, hh, hd]

theorem foldl_addScan_reorders (s : Stats) {ss ss' : List Scan}
    (h : List.Forall₂ Reorders ss ss') : ss.foldl addScan s = ss'.foldl addScan s := by
  induction h generalizing s with
  | nil => rfl
  | cons hab _ ih => rw [List.foldl_cons, List.foldl_cons, addScan_reorders s hab, ih]

end Stats

def Mapping.classes (m : Mapping) : String × List String := (m.sourceFile, m.classNames)

theorem Groups.classes_perm {rs rs' : List Record} {ms ms' : List Mapping} (h : Groups rs ms)
    (h' : Groups rs' ms') (hp : rs.Perm rs') :
    ms.map Mapping.classes = ms'.map Mapping.classes := by
  -- With the packages taken out both lists are tidy, and all else is told by the records.
  let bare (m : Mapping) : Mapping := ⟨m.sourceFile, m.classNames, ""⟩
  have tidy : ∀ {xs : List Mapping}, Tidy xs → Tidy (xs.map bare) := by
    intro xs hx
    constructor
    · rw [List.map_map]
      exact hx.ordered
    · intro m hm
      obtain ⟨x, hxm, rfl⟩ := List.mem_map.mp hm
      exact hx.names_ordered x hxm
  have he : ms.map bare = ms'.map bare := by
    apply (tidy h.toTidy).ext (tidy h'.toTidy)
    · intro s
      rw [List.map_map, List.map_map]
      exact (h.sources s).trans (((hp.map _).mem_iff).trans (h'.sources s).symm)
    · intro m hm m' hm' hs c
      obtain ⟨x, hx, rfl⟩ := List.mem_map.mp hm
      obtain ⟨x', hx', rfl⟩ := List.mem_map.mp hm'
      have hsource : x.sourceFile = x'.sourceFile := hs
      refine (h.names x hx c).trans (Iff.trans ?_ (h'.names x' hx' c).symm)
      rw [hsource, hp.mem_iff]
    · intro m hm m' hm' _
      obtain ⟨x, -, rfl⟩ := List.mem_map.mp hm
      obtain ⟨x', -, rfl⟩ := List.mem_map.mp hm'
      rfl
  have hc := congrArg (List.map Mapping.classes) he
  rw [List.map_map, List.map_map] at hc
  exact hc

theorem Groups.package_perm {rs rs' : List Record} {ms ms' : List Mapping} (h : Groups rs ms)
    (h' : Groups rs' ms') (hp : rs.Perm rs') {m m' : Mapping} (hm : m ∈ ms) (hm' : m' ∈ ms')
    (hs : m.sourceFile = m'.sourceFile)
    (hc : ∀ c d, ⟨m.sourceFile, c⟩ ∈ rs → ⟨m.sourceFile, d⟩ ∈ rs →
      ClassFile.packageOf c = ClassFile.packageOf d) : m.package = m'.package := by
  obtain ⟨c, hl, hpc⟩ := h.package m hm
  obtain ⟨d, hl', hpd⟩ := h'.package m' hm'
  have hcr : ⟨m.sourceFile, c⟩ ∈ rs := Record.mem_namesOf.mp (List.mem_of_getLast? hl)
  have hdr : ⟨m.sourceFile, d⟩ ∈ rs := by
    rw [hs]
    exact hp.mem_iff.mpr (Record.mem_namesOf.mp (List.mem_of_getLast? hl'))
  rw [hpc, hpd, hc c d hcr hdr]

namespace Extraction

variable {tree : FileTree} {order order' : EntryOrder} {paths paths' : List String}
  {ss ss' : List Scan}

theorem requested_perm (h : paths.Perm paths') : (requested paths).Perm (requested paths') :=
  h.filter _

theorem scans_reorder (hp : paths.Perm paths') (h : scans tree order paths = some ss)
    (h' : scans tree order' paths' = some ss') :
    ∃ mid, List.Forall₂ Reorders ss mid ∧ mid.Perm ss' := by
  obtain ⟨mid, hm, hperm⟩ :=
    List.perm_comp_forall₂ (requested_perm hp) (scans_eq_some.mp h')
  refine ⟨mid, ?_, hperm⟩
  have hs := scans_eq_some.mp h
  clear h h' hperm hp
  generalize requested paths = rest at hs hm
  induction hs generalizing mid with
  | nil =>
    cases hm
    exact .nil
  | cons hr _ ih =>
    cases hm with
    | cons hr' hm => exact .cons (Scan.run_reorders hr hr') (ih _ hm)

theorem flatMap_reorders {α : Type} {f : Scan → List α}
    (hf : ∀ a b, Reorders a b → (f a).Perm (f b)) (h : List.Forall₂ Reorders ss ss') :
    (ss.flatMap f).Perm (ss'.flatMap f) := by
  induction h with
  | nil => exact .refl _
  | cons hab _ ih => exact (hf _ _ hab).append ih

theorem stats_start_perm (h : paths.Perm paths') : (start paths).stats = (start paths').stats := by
  unfold start
  rw [h.length_eq, (requested_perm h).length_eq]

def Contributes (tree : FileTree) (order : EntryOrder) (paths : List String) (s c : String) :
    Prop :=
  ∃ path ∈ requested paths, ∃ scan, (Scan.run tree order path).value? = some scan ∧
    ∃ h ∈ scan.headers, h.sourceFile = some s ∧ h.className = c

theorem contributes_of_record (h : scans tree order paths = some ss) {s c : String}
    (hr : ⟨s, c⟩ ∈ (ss.flatMap Scan.headers).filterMap Record.ofHeader) :
    Contributes tree order paths s c := by
  obtain ⟨x, hx, hrec⟩ := List.mem_filterMap.mp hr
  obtain ⟨scan, hscan, hh⟩ := List.mem_flatMap.mp hx
  obtain ⟨s', hs', he⟩ := Option.map_eq_some_iff.mp hrec
  cases he
  obtain ⟨path, hp, hrun⟩ := (mem_scans h).mp hscan
  exact ⟨path, hp, scan, hrun, x, hh, hs', rfl⟩

/-- Extractions of the same paths in any two orders, with any settings, agree on the statistics,
on the diagnostics but for their order, on the source files and their classes, and on the
package of each source file whose classes all have the same one. -/
theorem run_reordered (tree : FileTree) (settings settings' : Settings)
    (paths paths' : List String) (e e' : Extraction) (hp : paths.Perm paths')
    (h : (run tree settings paths).value? = some e)
    (h' : (run tree settings' paths').value? = some e') :
    e.stats = e'.stats ∧ e.diagnostics.Perm e'.diagnostics ∧
    e.mappings.map Mapping.classes = e'.mappings.map Mapping.classes ∧
    ∀ m ∈ e.mappings, ∀ m' ∈ e'.mappings, m.sourceFile = m'.sourceFile →
      (∀ c d, Contributes tree settings.order paths m.sourceFile c →
        Contributes tree settings.order paths m.sourceFile d →
        ClassFile.packageOf c = ClassFile.packageOf d) → m.package = m'.package := by
  rw [value?_run] at h h'
  obtain ⟨ss, hs, rfl⟩ := Option.map_eq_some_iff.mp h
  obtain ⟨ss', hs', rfl⟩ := Option.map_eq_some_iff.mp h'
  obtain ⟨mid, hr, hm⟩ := scans_reorder hp hs hs'
  have headers : (ss.flatMap Scan.headers).Perm (ss'.flatMap Scan.headers) :=
    (flatMap_reorders (fun _ _ h => h.headers) hr).trans (hm.flatMap_right _)
  have records := headers.filterMap Record.ofHeader
  have groups := Aggregator.finish_groups (ss.flatMap Scan.headers)
  have groups' := Aggregator.finish_groups (ss'.flatMap Scan.headers)
  refine ⟨?_, ?_, groups.classes_perm groups' records, ?_⟩
  · show ss.foldl Stats.addScan _ = ss'.foldl Stats.addScan _
    rw [stats_start_perm hp, Stats.foldl_addScan_reorders _ hr]
    exact hm.foldl_eq' (fun a _ b _ s => Stats.addScan_comm s a b) _
  · exact (flatMap_reorders (fun _ _ h => h.diagnostics) hr).trans (hm.flatMap_right _)
  · intro m hmem m' hmem' hsource hc
    apply groups.package_perm groups' records hmem hmem' hsource
    intro c d hcr hdr
    exact hc c d (contributes_of_record hs hcr) (contributes_of_record hs hdr)

/-- Archives of one class each, of which two have the same source file and not the same
package. -/
def disputed : FileTree :=
  (((FileTree.empty []).put ["a.jar"] (archive "p/A" "S.java")).put ["b.jar"]
    (archive "q/A" "S.java")).put ["c.jar"] (archive "r/B" "T.java")
where
  archive (name source : String) : Node :=
    .file (written [] [Scan.classEntry "X.class" name source (by decide)])

theorem run_reordered_sample : ∃ e e' : Extraction,
    (run disputed ⟨.native, true⟩ ["/a.jar", "/b.jar", "/c.jar"]).value? = some e ∧
    (run disputed ⟨.canonical, false⟩ ["/b.jar", "/a.jar", "/c.jar"]).value? = some e' ∧
    e.stats = e'.stats ∧ e.mappings.map Mapping.classes = e'.mappings.map Mapping.classes ∧
    e.mappings.map Mapping.package = ["q", "r"] ∧ e'.mappings.map Mapping.package = ["p", "r"] := by
  have hs : ((run disputed ⟨.native, true⟩ ["/a.jar", "/b.jar", "/c.jar"]).value?.map
      fun e => e.mappings.map Mapping.package) = some ["q", "r"] := by decide +kernel
  have hs' : ((run disputed ⟨.canonical, false⟩ ["/b.jar", "/a.jar", "/c.jar"]).value?.map
      fun e => e.mappings.map Mapping.package) = some ["p", "r"] := by decide +kernel
  obtain ⟨e, he, hp⟩ := Option.map_eq_some_iff.mp hs
  obtain ⟨e', he', hp'⟩ := Option.map_eq_some_iff.mp hs'
  obtain ⟨stats, -, classes, -⟩ := run_reordered disputed ⟨.native, true⟩ ⟨.canonical, false⟩
    ["/a.jar", "/b.jar", "/c.jar"] ["/b.jar", "/a.jar", "/c.jar"] e e' (.swap _ _ _) he he'
  exact ⟨e, e', he, he', stats, classes, hp, hp'⟩

end Extraction

end JarIndex
