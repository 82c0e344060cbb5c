import JarIndex.Proofs.Extraction.Folding
import JarIndex.Proofs.Scan.Diagnosed
import JarIndex.Proofs.Scan.Written

/-!
# When a strict extraction fails

A strict extraction fails if something at one of its paths cannot be read, and then
with the diagnostic that comes first, path after path. Resources of the archives are
not among what it can fail for.
-/

set_option autoImplicit false

namespace JarIndex.Extraction

open Archive (Member)
open Scan (Alike Blames FirstAt Opens Troubled)

variable {tree : FileTree} {settings : Settings} {order : EntryOrder} {paths : List String}
  {ss : List Scan} {e : Extraction} {d : Diagnostic}

theorem strict_eq_error : e.strict = .error d ↔ ∃ rest, e.diagnostics = d :: rest := by
  unfold strict
  cases e.diagnostics with
  | nil => simp
  | cons d' rest => simp [eq_comm]

theorem strict_fails_iff : (∃ d, e.strict = .error d) ↔ e.diagnostics ≠ [] := by
  simp only [strict_eq_error]
  exact List.ne_nil_iff_exists_cons.symm

theorem strict_fails_iff_troubled (h : (run tree settings paths).value? = some e) :
    (∃ d, e.strict = .error d) ↔ ∃ path ∈ requested paths, Troubled tree path := by
  rw [value?_run] at h
  obtain ⟨ss, hs, rfl⟩ := Option.map_eq_some_iff.mp h
  rw [strict_fails_iff]
  constructor
  · intro hd
    obtain ⟨d, hd⟩ := List.exists_mem_of_ne_nil _ hd
    obtain ⟨scan, hscan, hd⟩ := List.mem_flatMap.mp hd
    obtain ⟨path, hp, hr⟩ := (mem_scans hs).mp hscan
    exact ⟨path, hp, (Scan.run_troubled_iff hr).mp (List.ne_nil_of_mem hd)⟩
  · rintro ⟨path, hp, ht⟩
    obtain ⟨scan, hscan, hr⟩ := scan_of_mem hs hp
    obtain ⟨d, hd⟩ := List.exists_mem_of_ne_nil _ ((Scan.run_troubled_iff hr).mpr ht)
    exact List.ne_nil_of_mem (List.mem_flatMap.mpr ⟨scan, hscan, hd⟩)

/-- That a diagnostic is the first one at the first of some paths at which something cannot be
read. -/
def FirstOf (tree : FileTree) (order : EntryOrder) (paths : List String) (d : Diagnostic) : Prop :=
  ∃ before path after, paths = before ++ path :: after ∧ (∀ p ∈ before, ¬ Troubled tree p) ∧
    FirstAt tree order path d

theorem first_of_scans {rest : List Diagnostic}
    (hs : List.Forall₂ (fun path scan => (Scan.run tree order path).value? = some scan) paths ss)
    (hd : ss.flatMap Scan.diagnostics = d :: rest) : FirstOf tree order paths d := by
  induction hs with
  | nil => cases hd
  | @cons path scan paths ss hr _ ih =>
    rw [List.flatMap_cons] at hd
    cases hscan : scan.diagnostics with
    | nil =>
      rw [hscan, List.nil_append] at hd
      obtain ⟨before, path', after, rfl, quiet, first⟩ := ih hd
      refine ⟨path :: before, path', after, rfl, ?_, first⟩
      rw [List.forall_mem_cons]
      exact ⟨fun ht => (Scan.run_troubled_iff hr).mpr ht hscan, quiet⟩
    | cons d' more =>
      rw [hscan, List.cons_append] at hd
      cases hd
      exact ⟨[], path, paths, rfl, by simp, Scan.run_first hr hscan⟩

theorem first_of_strict (h : (run tree settings paths).value? = some e)
    (hd : e.strict = .error d) : FirstOf tree settings.order (requested paths) d := by
  rw [value?_run] at h
  obtain ⟨ss, hs, rfl⟩ := Option.map_eq_some_iff.mp h
  obtain ⟨rest, hd⟩ := strict_eq_error.mp hd
  exact first_of_scans (scans_eq_some.mp hs) hd

/-- A diagnostic of an archive is about a member whose local header cannot be read, called by its
number, or about a class entry, called by its name. Resources whose local header can be read are
never its cause: a scan stays the same whatever becomes of them, and they are nothing that a strict
extraction fails for. -/
theorem resources_undiagnosed :
    (∀ t order path bs ms scan, Opens t path bs ms → (Scan.run t order path).value? = some scan →
      ∀ d ∈ scan.diagnostics, ∃ i m, ms[i]? = some m ∧ Blames path bs i m d) ∧
    (∀ t t' order path bs bs' ms ms', Opens t path bs ms → Opens t' path bs' ms' →
      List.Forall₂ (Alike bs bs') ms ms' →
        (Scan.run t order path).value? = (Scan.run t' order path).value?) ∧
    ∀ tree settings paths e, (run tree settings paths).value? = some e →
      ((∃ d, e.strict = .error d) ↔ ∃ path ∈ requested paths, Troubled tree path) := by
  refine ⟨?_, ?_, ?_⟩
  · intro t order path bs ms scan ho hr
    exact Scan.run_blames ho hr
  · intro t t' order path bs bs' ms ms' ho ho' h
    exact Scan.run_alike order ho ho' h
  · intro tree settings paths e h
    exact strict_fails_iff_troubled h

/-- The archive with the entries of the written one, of which the last, a text, is marked as
encrypted and compressed in a way that is not known. -/
def spoiledJar : Bytes :=
  let sound := Archive.written Archive.Locator.mark Scan.writtenEntries
  let record := sound.length - Archive.EndRecord.size - 53
  (sound.set (record + 8) 1).set (record + 10) 12

def spoiledMembers : List Member :=
  match Archive.membersOf Archive.Locator.mark Scan.writtenEntries with
  | [a, b, c] => [a, b, { c with encrypted := true, method := 12 }]
  | ms => ms

def spoiledTree : FileTree := Scan.writtenTree.put ["b.jar"] (.file spoiledJar)

/-- Spoiling the text changes nothing: the scan still blames the second class entry alone, and for
that a strict extraction fails. -/
theorem resources_undiagnosed_sample :
    (Scan.run Scan.writtenTree .native "/b.jar").value? =
      (Scan.run spoiledTree .native "/b.jar").value? ∧
    (∃ i m, spoiledMembers[i]? = some m ∧ Blames "/b.jar" spoiledJar i m
      (.undecoded "/b.jar" "A.class" (.unexpectedEnd 6))) ∧
    ∃ e, (run spoiledTree ⟨.native, false⟩ ["/b.jar"]).value? = some e ∧
      e.strict = .error (.undecoded "/b.jar" "A.class" (.unexpectedEnd 6)) ∧
      ∃ path ∈ requested ["/b.jar"], Troubled spoiledTree path := by
  have opens : Opens Scan.writtenTree "/b.jar" _
      (Archive.membersOf Archive.Locator.mark Scan.writtenEntries) :=
    Scan.opens_written (by decide +kernel) (by decide +kernel)
  have opens' : Opens spoiledTree "/b.jar" spoiledJar spoiledMembers :=
    ⟨by decide +kernel, by decide +kernel⟩
  have located := Scan.located_written Archive.Locator.mark Scan.writtenEntries
  have located' : ∀ m ∈ spoiledMembers, ∃ start, m.dataOffset spoiledJar = .ok start := by
    have h : ∀ m ∈ spoiledMembers, (m.dataOffset spoiledJar).toOption.isSome = true := by
      decide +kernel
    intro m hm
    exact Scan.located_iff.mp (h m hm)
  have alike : List.Forall₂ (Alike (Archive.written Archive.Locator.mark Scan.writtenEntries)
      spoiledJar) (Archive.membersOf Archive.Locator.mark Scan.writtenEntries) spoiledMembers := by
    apply List.Forall₂.cons (.entry (located _ (by decide +kernel)) (located' _ (by decide +kernel))
      (by decide +kernel))
    apply List.Forall₂.cons (.entry (located _ (by decide +kernel)) (located' _ (by decide +kernel))
      (by decide +kernel))
    apply List.Forall₂.cons (.resource (located _ (by decide +kernel))
      (located' _ (by decide +kernel)) (by decide +kernel) (by decide +kernel))
    exact .nil
  have scanned : (Scan.run spoiledTree .native "/b.jar").value? = some ⟨"/b.jar", .scanned, 2,
      [⟨"p.B", some "B.java"⟩], [.undecoded "/b.jar" "A.class" (.unexpectedEnd 6)]⟩ := by
    decide +kernel
  have strict : (run spoiledTree ⟨.native, false⟩ ["/b.jar"]).value?.map Extraction.strict =
      some (.error (.undecoded "/b.jar" "A.class" (.unexpectedEnd 6))) := by decide +kernel
  obtain ⟨e, he, hd⟩ := Option.map_eq_some_iff.mp strict
  exact ⟨resources_undiagnosed.2.1 _ _ _ _ _ _ _ _ opens opens' alike,
    resources_undiagnosed.1 _ _ _ _ _ _ opens' scanned _ List.mem_cons_self,
    e, he, hd, (resources_undiagnosed.2.2 _ _ _ e he).mp ⟨_, hd⟩⟩

def damagedJar : Bytes :=
  0 :: (Archive.written [] [Scan.classEntry "r.txt" "p/A" "A.java" (by decide)]).tail

def damagedTree : FileTree := (FileTree.empty []).put ["r.jar"] (.file damagedJar)

/-- A damaged local header is diagnosed although no member is a class entry, and a strict
extraction fails for it. -/
theorem lost_resource_diagnosed :
    (∀ order, (Scan.run damagedTree order "/r.jar").value? =
      some ⟨"/r.jar", .scanned, 0, [], [.unreadEntry "/r.jar" "#0" .localHeader]⟩) ∧
    (run damagedTree ⟨.canonical, false⟩ ["/r.jar"]).value?.map strict =
      some (.error (.unreadEntry "/r.jar" "#0" .localHeader)) ∧
    ¬ ∀ t order path bs ms scan, Opens t path bs ms → (Scan.run t order path).value? = some scan →
      ∀ d ∈ scan.diagnostics, d.scope = .entry →
        ∃ m ∈ ms, Scan.classSuffix.toList <:+ m.name.toList ∧ d.entry = some m.name := by
  have scanned : ∀ order, (Scan.run damagedTree order "/r.jar").value? =
      some ⟨"/r.jar", .scanned, 0, [], [.unreadEntry "/r.jar" "#0" .localHeader]⟩ := by
    intro order
    cases order <;> decide +kernel
  refine ⟨scanned, by decide +kernel, ?_⟩
  intro h
  have opens : Opens damagedTree "/r.jar" damagedJar (Archive.membersOf []
      [Scan.classEntry "r.txt" "p/A" "A.java" (by decide)]) :=
    ⟨by decide +kernel, by decide +kernel⟩
  obtain ⟨m, hm, named, -⟩ := h _ _ _ _ _ _ opens (scanned .native) _ List.mem_cons_self rfl
  have unnamed : ∀ m ∈ Archive.membersOf [] [Scan.classEntry "r.txt" "p/A" "A.java" (by decide)],
      ¬ Scan.classSuffix.toList <:+ m.name.toList := by decide +kernel
  exact unnamed m hm named

end JarIndex.Extraction
