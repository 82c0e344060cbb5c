import JarIndex.Report
import JarIndex.Proofs.Json.RoundTrip

/-!
# Reading a report

What an extraction tells is its mappings, the messages of its diagnostics and its
figures. All of it is read back from the printed document by the keys alone; a key
that stands twice in an object would name nothing.
-/

set_option autoImplicit false

namespace JarIndex

namespace Json.Value

/-- What stands under a key, if the key stands there once. -/
def field? (key : String) : Value → Option Value
  | .object fs =>
    match fs.filter fun f => f.1 = key with
    | [f] => some f.2
    | _ => none
  | _ => none

def asText? : Value → Option String
  | .text s => some s
  | _ => none

def asCount? : Value → Option Nat
  | .number q => if q = q.num.toNat then some q.num.toNat else none
  | _ => none

def asList? {α : Type} (read? : Value → Option α) : Value → Option (List α)
  | .array vs => vs.mapM read?
  | _ => none

end Json.Value

structure Told where
  mappings : List Mapping
  messages : List String
  stats : Stats

namespace Extraction

def told (e : Extraction) : Told := ⟨e.mappings, e.diagnostics.map Diagnostic.message, e.stats⟩

end Extraction

namespace Report
open Json (Value value values)
open Json.Value (asText? asCount? asList?)

def mapping? (v : Value) : Option Mapping := do
  let file ← (← v.field? "sourceFile").asText?
  let names ← asList? asText? (← v.field? "jvmClassNames")
  let package ← (← v.field? "packageName").asText?
  return ⟨file, names, package⟩

def stats? (v : Value) : Option Stats := do
  let requested ← (← v.field? "archivesRequested").asCount?
  let blank ← (← v.field? "blankPaths").asCount?
  let missing ← (← v.field? "archivesMissing").asCount?
  let scanned ← (← v.field? "archivesScanned").asCount?
  let failed ← (← v.field? "archivesFailed").asCount?
  let parsed ← (← v.field? "classesParsed").asCount?
  let sourced ← (← v.field? "classesWithSource").asCount?
  let entries ← (← v.field? "entriesFailed").asCount?
  return ⟨requested, blank, missing, scanned, failed, parsed, sourced, entries⟩

def told? (v : Value) : Option Told := do
  let mappings ← asList? mapping? (← v.field? "mappings")
  let messages ← asList? asText? (← v.field? "diagnostics")
  let stats ← stats? (← v.field? "stats")
  return ⟨mappings, messages, stats⟩

theorem asCount?_number (n : Nat) : (Value.number n).asCount? = some n := by simp [asCount?]

theorem asList?_values {α : Type} {read? : Value → Option α} {of : α → Json}
    (h : ∀ a, read? (of a).value = some a) (as : List α) :
    asList? read? (.array (values (as.map of))) = some as := by
  rw [Json.values_eq_map, asList?, List.map_map]
  induction as with
  | nil => rfl
  | cons a as ih => simp [List.mapM_cons, h, ih]

theorem asList?_texts (ss : List String) : asList? asText? (texts ss).value = some ss :=
  asList?_values (fun _ => rfl) ss

theorem mapping?_ofMapping (m : Mapping) : mapping? (ofMapping m).value = some m := by
  simp [mapping?, ofMapping, value, Json.fieldValues, Value.field?, asText?, asList?_texts]

theorem stats?_ofStats (s : Stats) : stats? (ofStats s).value = some s := by
  simp [stats?, ofStats, value, Json.fieldValues, Value.field?, asCount?_number]

theorem told?_ofExtraction (e : Extraction) : told? (ofExtraction e).value = some e.told := by
  have hm := asList?_values mapping?_ofMapping e.mappings
  simp [told?, ofExtraction, value, Json.fieldValues, Value.field?, hm, asList?_texts,
    stats?_ofStats, Extraction.told]

theorem read_ended (j : Json) : Json.read (ended j.pretty) = some j.value := by
  unfold ended
  split
  · exact Json.read_pretty j
  · exact Json.read_render j 0 (Json.delimited_cons rfl) rfl

theorem ofExtraction_eq {e e' : Extraction} (h : e.told = e'.told) :
    ofExtraction e = ofExtraction e' := by
  obtain ⟨hm, hd, hs⟩ := Told.mk.inj h
  rw [ofExtraction, hm, hd, hs, ← ofExtraction]

/-- Nothing of what an extraction tells is lost in the document, be it in a file or printed, and
so no two that tell different things have one document. -/
theorem read_json (e e' : Extraction) :
    (Json.read (render .json e)).bind told? = some e.told ∧
      (Json.read (ended (render .json e))).bind told? = some e.told ∧
      (render .json e = render .json e' ↔ e.told = e'.told) ∧
      (ended (render .json e) = ended (render .json e') ↔ e.told = e'.told) := by
  have hread : ∀ e, (Json.read (render .json e)).bind told? = some e.told := fun e => by
    rw [render, Json.read_pretty, Option.bind_some, told?_ofExtraction]
  have hended : ∀ e, (Json.read (ended (render .json e))).bind told? = some e.told := fun e => by
    rw [render, read_ended, Option.bind_some, told?_ofExtraction]
  have hrender : e.told = e'.told → render .json e = render .json e' := fun h => by
    rw [render, ofExtraction_eq h, ← render]
  refine ⟨hread e, hended e, ⟨fun h => ?_, hrender⟩, ⟨fun h => ?_, fun h => by rw [hrender h]⟩⟩
  · exact Option.some.inj (by rw [← hread e, h, hread e'])
  · exact Option.some.inj (by rw [← hended e, h, hended e'])

end Report

end JarIndex
