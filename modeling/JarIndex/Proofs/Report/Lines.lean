import JarIndex.Report
import JarIndex.Proofs.Extraction.Folding
import JarIndex.Proofs.Mapping.History
import JarIndex.Proofs.Scan.Written

/-!
# Reading a report that is text

The text has a line for each mapping and each diagnostic, and separates by tabs and
commas what is in a mapping. None of these marks is escaped. So the text can be read
back exactly if no name and no message holds a mark that stands around it, and a class
file whose source file has a newline in its name forges lines.
-/

set_option autoImplicit false

namespace JarIndex

section Fields
variable {c : Char}

def fields (c : Char) (s : String) : List String := (s.toList.splitOn c).map String.ofList

def joined (c : Char) (ss : List String) : String := String.intercalate (String.singleton c) ss

theorem joined_cons {s : String} {ss : List String} (h : ss ≠ []) :
    joined c (s :: ss) = s ++ String.singleton c ++ joined c ss :=
  String.intercalate_cons_of_ne_nil h

theorem mem_joined {x : Char} (hx : x ≠ c) {ss : List String} :
    x ∈ (joined c ss).toList ↔ ∃ s ∈ ss, x ∈ s.toList := by
  induction ss with
  | nil => simp [joined]
  | cons s ss ih =>
    by_cases hn : ss = []
    · simp [joined, hn]
    · simp [joined_cons hn, ih, hx]

theorem not_mem_of_mem_splitOn {cs piece : List Char} (h : piece ∈ cs.splitOn c) : c ∉ piece := by
  induction cs generalizing piece with
  | nil =>
    rw [List.splitOn_nil, List.mem_singleton] at h
    simp [h]
  | cons x cs ih =>
    rw [List.splitOn_cons_eq_if_modifyHead] at h
    split at h
    · rcases List.mem_cons.mp h with rfl | h
      · exact List.not_mem_nil
      · exact ih h
    · next hx =>
      obtain ⟨first, rest, hs⟩ := List.exists_cons_of_ne_nil (List.splitOn_ne_nil c cs)
      simp only [hs, List.modifyHead_cons, List.mem_cons] at h ih
      rcases h with rfl | h
      · have hc : c ≠ x := fun he => hx (by simp [he])
        simpa [hc] using ih (.inl rfl)
      · exact ih (.inr h)

/-- Texts are read back from between the marks exactly if no mark is in one of them. -/
theorem fields_joined_iff {ss : List String} (hne : ss ≠ []) :
    fields c (joined c ss) = ss ↔ ∀ s ∈ ss, c ∉ s.toList := by
  constructor
  · intro h s hs
    rw [← h] at hs
    obtain ⟨cs, hcs, rfl⟩ := List.mem_map.mp hs
    rw [String.toList_ofList]
    exact not_mem_of_mem_splitOn hcs
  · intro h
    have hs : (ss.map String.toList).map String.ofList = ss := by simp [Function.comp_def]
    rw [fields, joined, String.toList_intercalate, String.toList_singleton,
      List.splitOn_intercalate c (by simpa using h) (by simpa using hne), hs]

theorem join_lines (ss : List String) :
    String.join (ss.map (· ++ "\n")) = joined '\n' (ss ++ [""]) := by
  induction ss with
  | nil => rfl
  | cons s ss ih =>
    rw [List.map_cons, List.cons_append, joined_cons (by simp), ← ih]
    simp

end Fields

theorem mem_of_mem_packageOf {name : String} {c : Char}
    (h : c ∈ (ClassFile.packageOf name).toList) : c ∈ name.toList := by
  rcases packageOf_isPackage name with ⟨-, hp⟩ | ⟨last, -, hp⟩
  · simp [hp] at h
  · exact hp ▸ List.mem_append_left _ h

namespace Report

def mappingRecord (m : Mapping) : String :=
  joined '\t' [m.sourceFile, m.package, joined ',' m.classNames]

def diagnosticRecord (d : Diagnostic) : String := "! " ++ d.message

def records (e : Extraction) : List String :=
  e.mappings.map mappingRecord ++ e.diagnostics.map diagnosticRecord

theorem text_eq (e : Extraction) : text e = joined '\n' (records e ++ [""]) := by
  have hm : mappingLine = (· ++ "\n") ∘ mappingRecord := by
    funext m
    have ht : "\t" = String.singleton '\t' := rfl
    simp [mappingLine, mappingRecord, joined, ← ht, String.intercalate_cons_cons,
      String.append_assoc]
  have hd : diagnosticLine = (· ++ "\n") ∘ diagnosticRecord := rfl
  rw [← join_lines, text, records, List.map_append, List.map_map, List.map_map, hm, hd]

/-- That each line of the text is one record, and the marks in a record are those around what the
mapping has. -/
structure Readable (e : Extraction) : Prop where
  lines : fields '\n' (text e) = records e ++ [""]
  columns : ∀ m ∈ e.mappings,
    fields '\t' (mappingRecord m) = [m.sourceFile, m.package, joined ',' m.classNames]
  names : ∀ m ∈ e.mappings, fields ',' (joined ',' m.classNames) = m.classNames

/-- That no source file has a tab or a newline in it, no class name these or a comma, and no
message a newline. -/
structure Plain (e : Extraction) : Prop where
  sources : ∀ m ∈ e.mappings, '\t' ∉ m.sourceFile.toList ∧ '\n' ∉ m.sourceFile.toList
  names : ∀ m ∈ e.mappings, ∀ name ∈ m.classNames,
    '\t' ∉ name.toList ∧ '\n' ∉ name.toList ∧ ',' ∉ name.toList
  messages : ∀ d ∈ e.diagnostics, '\n' ∉ d.message.toList

section Marks
variable {e : Extraction} {m : Mapping} {x : Char}

theorem lines_iff : fields '\n' (text e) = records e ++ [""] ↔
    (∀ m ∈ e.mappings, '\n' ∉ (mappingRecord m).toList) ∧
      ∀ d ∈ e.diagnostics, '\n' ∉ d.message.toList := by
  have hd : ∀ d, '\n' ∈ (diagnosticRecord d).toList ↔ '\n' ∈ d.message.toList := fun d => by
    simp [diagnosticRecord]
  rw [text_eq, fields_joined_iff (by simp)]
  simp only [records, List.forall_mem_append, List.forall_mem_map, hd, List.forall_mem_singleton]
  simp

theorem mem_mappingRecord (ht : x ≠ '\t') (hc : x ≠ ',') : x ∈ (mappingRecord m).toList ↔
    x ∈ m.sourceFile.toList ∨ x ∈ m.package.toList ∨ ∃ name ∈ m.classNames, x ∈ name.toList := by
  simp [mappingRecord, mem_joined ht, mem_joined hc]

theorem columns_iff :
    fields '\t' (mappingRecord m) = [m.sourceFile, m.package, joined ',' m.classNames] ↔
      '\t' ∉ m.sourceFile.toList ∧ '\t' ∉ m.package.toList ∧
        ∀ name ∈ m.classNames, '\t' ∉ name.toList := by
  rw [mappingRecord, fields_joined_iff (by simp)]
  simp [mem_joined (c := ',') (x := '\t') (by decide)]

def Packaged (e : Extraction) : Prop :=
  ∀ m ∈ e.mappings, ∃ name ∈ m.classNames, m.package = ClassFile.packageOf name

theorem Packaged.not_mem_package (hp : Packaged e) (hm : m ∈ e.mappings)
    (h : ∀ name ∈ m.classNames, x ∉ name.toList) : x ∉ m.package.toList := by
  obtain ⟨name, hn, hpackage⟩ := hp m hm
  intro hx
  exact h name hn (mem_of_mem_packageOf (hpackage ▸ hx))

theorem readable_iff (hp : Packaged e) : Readable e ↔ Plain e := by
  have hne : ∀ m ∈ e.mappings, m.classNames ≠ [] := fun m hm h => by
    obtain ⟨name, hn, -⟩ := hp m hm
    simp [h] at hn
  have hline : ∀ m, '\n' ∉ (mappingRecord m).toList ↔ '\n' ∉ m.sourceFile.toList ∧
      '\n' ∉ m.package.toList ∧ ∀ name ∈ m.classNames, '\n' ∉ name.toList := fun m => by
    simp [mem_mappingRecord]
  constructor
  · intro h
    obtain ⟨hlines, hmessages⟩ := lines_iff.mp h.lines
    have hcolumns := fun m hm => columns_iff.mp (h.columns m hm)
    have hnames := fun m hm => (fields_joined_iff (hne m hm)).mp (h.names m hm)
    refine ⟨fun m hm => ⟨(hcolumns m hm).1, ((hline m).mp (hlines m hm)).1⟩, fun m hm name hn => ?_,
      hmessages⟩
    exact ⟨(hcolumns m hm).2.2 name hn, ((hline m).mp (hlines m hm)).2.2 name hn,
      hnames m hm name hn⟩
  · intro h
    refine ⟨lines_iff.mpr ⟨fun m hm => (hline m).mpr ?_, h.messages⟩, fun m hm => ?_, fun m hm => ?_⟩
    · have hn := fun name hn => (h.names m hm name hn).2.1
      exact ⟨(h.sources m hm).2, hp.not_mem_package hm hn, hn⟩
    · have hn := fun name hn => (h.names m hm name hn).1
      exact columns_iff.mpr ⟨(h.sources m hm).1, hp.not_mem_package hm hn, hn⟩
    · exact (fields_joined_iff (hne m hm)).mpr fun name hn => (h.names m hm name hn).2.2

end Marks

end Report

theorem Groups.packaged {rs : List Record} {ms : List Mapping} (h : Groups rs ms) :
    ∀ m ∈ ms, ∃ name ∈ m.classNames, m.package = ClassFile.packageOf name := by
  intro m hm
  obtain ⟨name, hlast, hp⟩ := h.package m hm
  have hr := Record.mem_namesOf.mp (List.mem_of_getLast? hlast)
  exact ⟨name, (h.names m hm name).mpr hr, hp⟩

namespace Report

section Reading
variable {e : Extraction} {m : Mapping}

def mappingOfLine? (line : String) : Option Mapping :=
  match fields '\t' line with
  | [source, package, names] => some ⟨source, fields ',' names, package⟩
  | _ => none

def isMarked (s : String) : Bool := ['!', ' '].isPrefixOf s.toList

def readText (s : String) : List Mapping × List String :=
  let lines := (fields '\n' s).dropLast
  ((lines.filter (!isMarked ·)).filterMap mappingOfLine?,
    (lines.filter isMarked).map fun line => String.ofList (line.toList.drop 2))

theorem isMarked_mappingRecord (m : Mapping) : isMarked (mappingRecord m) = isMarked m.sourceFile := by
  have hr : (mappingRecord m).toList = m.sourceFile.toList ++ '\t' ::
      (joined '\t' [m.package, joined ',' m.classNames]).toList := by
    simp [mappingRecord, joined_cons]
  rw [isMarked, isMarked, hr]
  rcases m.sourceFile.toList with _ | ⟨a, _ | ⟨b, cs⟩⟩ <;> simp [List.isPrefixOf]

theorem Readable.mappingOfLine? (h : Readable e) (hm : m ∈ e.mappings) :
    mappingOfLine? (mappingRecord m) = some m := by
  simp only [Report.mappingOfLine?, h.columns m hm, h.names m hm]

/-- What is marked as the line of a diagnostic is one, where no source file is called like it. -/
theorem Readable.readText (h : Readable e) (hu : ∀ m ∈ e.mappings, isMarked m.sourceFile = false) :
    readText (text e) = (e.mappings, e.diagnostics.map Diagnostic.message) := by
  have hm : ∀ line ∈ e.mappings.map mappingRecord, isMarked line = false := by
    simpa [isMarked_mappingRecord] using hu
  have hd : ∀ line ∈ e.diagnostics.map diagnosticRecord, isMarked line = true := by
    simp [diagnosticRecord, isMarked]
  have hmappings : (e.mappings.map mappingRecord).filterMap Report.mappingOfLine? = e.mappings := by
    have hc : ∀ m ∈ e.mappings, (Report.mappingOfLine? ∘ mappingRecord) m = some m :=
      fun m hm => h.mappingOfLine? hm
    rw [List.filterMap_map, List.filterMap_congr hc, List.filterMap_some]
  have hmessages : (e.diagnostics.map diagnosticRecord).map
      (fun line => String.ofList (line.toList.drop 2)) = e.diagnostics.map Diagnostic.message := by
    simp [diagnosticRecord, Function.comp_def]
  have hplain : (records e).filter (!isMarked ·) = e.mappings.map mappingRecord := by
    rw [records, List.filter_append, List.filter_eq_self.mpr fun line hl => by simp [hm line hl],
      List.filter_eq_nil_iff.mpr fun line hl => by simp [hd line hl], List.append_nil]
  have hmarked : (records e).filter isMarked = e.diagnostics.map diagnosticRecord := by
    rw [records, List.filter_append, List.filter_eq_nil_iff.mpr fun line hl => by simp [hm line hl],
      List.filter_eq_self.mpr hd, List.nil_append]
  simp only [Report.readText, h.lines, List.dropLast_concat, hplain, hmarked, hmappings, hmessages]

end Reading

section Runs
open Extraction (run)
variable {tree tree' : FileTree} {settings settings' : Settings} {paths paths' : List String}
  {e e' : Extraction}

theorem packaged_of_run (h : (run tree settings paths).value? = some e) : Packaged e := by
  rw [Extraction.value?_run] at h
  obtain ⟨ss, -, rfl⟩ := Option.map_eq_some_iff.mp h
  exact (Aggregator.finish_groups (ss.flatMap Scan.headers)).packaged

def Unmarked (e : Extraction) : Prop := ∀ m ∈ e.mappings, isMarked m.sourceFile = false

/-- The text of an extraction has a line for each record, with the columns and names of each
mapping, exactly if the names and messages are plain; then it can be read back, and tells what no
other such extraction does. -/
theorem text_readable_iff (h : (run tree settings paths).value? = some e)
    (h' : (run tree' settings' paths').value? = some e') :
    (Readable e ↔ Plain e) ∧
      (Plain e → Unmarked e →
        readText (text e) = (e.mappings, e.diagnostics.map Diagnostic.message)) ∧
      (Plain e → Unmarked e → Plain e' → Unmarked e' → text e = text e' →
        e.mappings = e'.mappings ∧
          e.diagnostics.map Diagnostic.message = e'.diagnostics.map Diagnostic.message) := by
  have hr := readable_iff (packaged_of_run h)
  have hr' := readable_iff (packaged_of_run h')
  refine ⟨hr, fun hp hu => (hr.mpr hp).readText hu, fun hp hu hp' hu' ht => ?_⟩
  have hread := (hr.mpr hp).readText hu
  rw [ht, (hr'.mpr hp').readText hu'] at hread
  exact ⟨(congrArg Prod.fst hread).symm, (congrArg Prod.snd hread).symm⟩

def twoSources : FileTree :=
  ((FileTree.empty []).put ["a.jar"] (.file (Archive.written []
    [Scan.classEntry "K.class" "K" "K" (by decide),
      Scan.classEntry "L.class" "L" "L" (by decide)]))).put ["c.jar"] (.file [1, 2, 3])

/-- One class, whose source file is called like a line and the beginning of another. -/
def forged : FileTree :=
  (FileTree.empty []).put ["a.jar"] (.file (Archive.written []
    [Scan.classEntry "L.class" "L" "K\t\tK\nL" (by decide)]))

theorem text_readable_sample : ∃ e,
    (run twoSources ⟨.native, false⟩ ["/a.jar", "/c.jar"]).value? = some e ∧ Readable e ∧
      readText (text e) = ([⟨"K", ["K"], ""⟩, ⟨"L", ["L"], ""⟩],
        ["failed to read archive /c.jar: invalid Zip archive: Invalid zip header"]) := by
  have hr : (run twoSources ⟨.native, false⟩ ["/a.jar", "/c.jar"]).value? = some
      ⟨[⟨"K", ["K"], ""⟩, ⟨"L", ["L"], ""⟩], [.notAnArchive "/c.jar" .tooShort],
        ⟨2, 0, 0, 1, 1, 2, 2, 0⟩⟩ := by decide +kernel
  obtain ⟨hreadable, hread, -⟩ := text_readable_iff hr hr
  have hp : Plain ⟨[⟨"K", ["K"], ""⟩, ⟨"L", ["L"], ""⟩],
      [.notAnArchive "/c.jar" .tooShort], ⟨2, 0, 0, 1, 1, 2, 2, 0⟩⟩ :=
    ⟨by decide +kernel, by decide +kernel, by decide +kernel⟩
  have hu : Unmarked ⟨[⟨"K", ["K"], ""⟩, ⟨"L", ["L"], ""⟩],
      [.notAnArchive "/c.jar" .tooShort], ⟨2, 0, 0, 1, 1, 2, 2, 0⟩⟩ := by
    unfold Unmarked
    decide +kernel
  exact ⟨_, hr, hreadable.mpr hp, hread hp hu⟩

/-- One mapping whose text is that of two. -/
theorem forged_lines : ∃ e e',
    (run forged ⟨.native, false⟩ ["/a.jar"]).value? = some e ∧
      (run twoSources ⟨.native, false⟩ ["/a.jar"]).value? = some e' ∧
      e.mappings = [⟨"K\t\tK\nL", ["L"], ""⟩] ∧
      e'.mappings = [⟨"K", ["K"], ""⟩, ⟨"L", ["L"], ""⟩] ∧
      text e = text e' ∧ fields '\n' (text e) = ["K\t\tK", "L\t\tL", ""] := by
  refine ⟨⟨[⟨"K\t\tK\nL", ["L"], ""⟩], [], ⟨1, 0, 0, 1, 0, 1, 1, 0⟩⟩,
    ⟨[⟨"K", ["K"], ""⟩, ⟨"L", ["L"], ""⟩], [], ⟨1, 0, 0, 1, 0, 2, 2, 0⟩⟩, ?_, ?_,
    rfl, rfl, ?_, ?_⟩
  all_goals decide +kernel

end Runs

end Report

end JarIndex
