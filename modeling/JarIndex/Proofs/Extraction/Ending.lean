import JarIndex.Proofs.Extraction.Folding
import JarIndex.Proofs.Mapping.History
import JarIndex.Proofs.Scan.Accounting
import JarIndex.Proofs.Scan.Ending

/-!
# When an extraction ends

An extraction ends with a result unless some archive has a class entry that
reading cannot go on after. One such entry is enough to lose what all the other
entries and archives give; without it every class entry is told of in the result.
-/

set_option autoImplicit false

namespace JarIndex.Extraction

open Archive (Member Fatal)
open ClassFile (Header)
open Scan (IsVisited Opens)

/-- That the mappings of an extraction have the class of a header, if it has a source file. -/
def Keeps (e : Extraction) (h : Header) : Prop :=
  ∀ s, h.sourceFile = some s → ∃ m ∈ e.mappings, m.sourceFile = s ∧ h.className ∈ m.classNames

/-- That an extraction has the header of a class entry, or a diagnostic with its name. -/
def Tells (e : Extraction) (path : String) (bs : Bytes) (m : Member) : Prop :=
  (∃ h, Scan.Gives path bs m (.header h) ∧ Keeps e h) ∨
    ∃ d, Scan.Gives path bs m (.diagnostic d) ∧ d.scope = .entry ∧ d.entry = some m.name ∧
      d ∈ e.diagnostics

variable {tree : FileTree} {order : EntryOrder} {path : String} {paths : List String}
  {ss : List Scan}

theorem scans_end_iff : (scans tree order paths).isSome = true ↔
    ∀ path ∈ requested paths, (Scan.run tree order path).value?.isSome = true :=
  Run.isSome_mapM_value? _ _

theorem keeps_header {scan : Scan} {h : Header} (hs : scan ∈ ss) (hh : h ∈ scan.headers) :
    Keeps (ofScans paths ss) h := by
  intro s hsource
  have hm : h ∈ ss.flatMap Scan.headers := List.mem_flatMap.mpr ⟨scan, hs, hh⟩
  have hr : ⟨s, h.className⟩ ∈ (ss.flatMap Scan.headers).filterMap Record.ofHeader := by
    apply List.mem_filterMap.mpr
    exact ⟨h, hm, by simp [Record.ofHeader, hsource]⟩
  exact ((Aggregator.finish_groups _).mem_names s h.className).mp hr

theorem tells_visited {scan : Scan} {bs : Bytes} {ms : List Member} {m : Member} (hs : scan ∈ ss)
    (hr : (Scan.run tree order path).value? = some scan) (ho : Opens tree path bs ms)
    (hm : m ∈ ms) (hv : IsVisited bs m) : Tells (ofScans paths ss) path bs m := by
  obtain ⟨l, -, hh, hd⟩ := (Scan.accounted_of_value hr).scanned bs ms ho
  obtain ⟨i, hi⟩ := List.getElem?_of_mem hm
  have he := (l.mem_visits m i).mpr ⟨hi, hv.located, hv.named⟩
  have hg := l.gives _ he
  cases hx : Scan.visit path bs m with
  | abort =>
    rw [hx] at hg
    cases hg
  | header h =>
    rw [hx] at hg
    refine Or.inl ⟨h, hg, keeps_header hs ?_⟩
    rw [hh]
    exact List.mem_filterMap.mpr ⟨_, he, by simp [hx, Scan.Visit.header?]⟩
  | diagnostic d =>
    rw [hx] at hg
    have hmem : d ∈ (ofScans paths ss).diagnostics := by
      apply List.mem_flatMap.mpr ⟨scan, hs, _⟩
      rw [hd]
      apply List.mem_append_right
      exact List.mem_filterMap.mpr ⟨_, he, by simp [hx, Scan.Visit.diagnostic?]⟩
    refine Or.inr ⟨d, hg, ?_, ?_, hmem⟩ <;> cases hg <;> rfl

/-- Scans and extractions end unless they come to a class entry that reading cannot go on
after. An extraction that ends tells of every class entry of every archive. -/
theorem ends_unless_fatal (tree : FileTree) (settings : Settings) (paths : List String) :
    (∀ path, (Scan.run tree settings.order path).value?.isSome = true ↔
      ∀ bs ms, Opens tree path bs ms → ∀ m ∈ ms, IsVisited bs m → ¬ Fatal bs m) ∧
    ((run tree settings paths).value?.isSome = true ↔ ∀ path ∈ requested paths,
      ∀ bs ms, Opens tree path bs ms → ∀ m ∈ ms, IsVisited bs m → ¬ Fatal bs m) ∧
    ∀ e, (run tree settings paths).value? = some e → ∀ path ∈ requested paths,
      ∀ bs ms, Opens tree path bs ms → ∀ m ∈ ms, IsVisited bs m → Tells e path bs m := by
  refine ⟨Scan.run_ends_iff tree settings.order, ?_, ?_⟩
  · simp only [← Scan.run_ends_iff tree settings.order]
    rw [value?_run, Option.isSome_map, scans_end_iff]
  · intro e h path hp bs ms ho m hm hv
    rw [value?_run] at h
    obtain ⟨ss, hs, rfl⟩ := Option.map_eq_some_iff.mp h
    have hend := scans_end_iff.mp (Option.isSome_of_eq_some hs) path hp
    obtain ⟨scan, hr⟩ := Option.isSome_iff_exists.mp hend
    exact tells_visited ((mem_scans hs).mpr ⟨path, hp, hr⟩) hr ho hm hv

/-- A stored class entry with an AES field behind its name. -/
def sealedJar : Bytes :=
  Member.localMark ++ List.replicate 26 0 ++ Scan.sampleClass ++
  Member.mark ++ List.replicate 12 0 ++ [184, 147, 35, 14, 31, 0, 0, 0, 31, 0, 0, 0, 7, 0, 11, 0] ++
    List.replicate 14 0 ++ [65, 46, 99, 108, 97, 115, 115] ++
    [0x01, 0x99, 7, 0, 1, 0, 0x41, 0x45, 1, 0, 0] ++
  Archive.EndRecord.mark ++ [0, 0, 0, 0, 1, 0, 1, 0, 64, 0, 0, 0, 61, 0, 0, 0, 0, 0]

def sealedTree : FileTree := Scan.sampleTree.put ["b.jar"] (.file sealedJar)

/-- One archive with such an entry leaves nothing of the archive in front of it. -/
theorem sealed_entry_aborts :
    (Scan.run sealedTree .canonical "/a.jar").value?.isSome = true ∧
    (Scan.run sealedTree .canonical "/b.jar").value? = none ∧
    ∀ settings, (run sealedTree settings ["/a.jar", "/b.jar"]).value? = none := by
  have ha : (Scan.run sealedTree .canonical "/a.jar").value?.isSome = true := by decide +kernel
  have hb : ∀ order, (Scan.run sealedTree order "/b.jar").value? = none := by
    intro order
    cases order <;> decide +kernel
  refine ⟨ha, hb .canonical, ?_⟩
  intro settings
  have hn : ¬ (scans sealedTree settings.order ["/a.jar", "/b.jar"]).isSome = true := by
    rw [scans_end_iff]
    intro h
    have hs := h "/b.jar" (by decide +kernel)
    rw [hb] at hs
    cases hs
  rw [value?_run, Option.not_isSome_iff_eq_none.mp hn]
  rfl

end JarIndex.Extraction
