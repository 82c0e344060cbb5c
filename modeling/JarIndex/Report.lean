import JarIndex.Extraction
import JarIndex.Json

/-!
# Reports

An extraction is reported as one JSON document, or as text: a line of source
file, package and class names for each mapping, then a line for each diagnostic.
-/

set_option autoImplicit false

namespace JarIndex

inductive Format where
  | json
  | text
  deriving DecidableEq, Repr

structure Inspection where
  path : String
  classes : List ClassFile.Header
  diagnostics : List String
  deriving DecidableEq, Repr

namespace Report

def texts (ss : List String) : Json := .array (ss.map .text)

def ofMapping (m : Mapping) : Json :=
  .object [("sourceFile", .text m.sourceFile), ("jvmClassNames", texts m.classNames),
    ("packageName", .text m.package)]

def ofStats (s : Stats) : Json :=
  .object [("archivesRequested", .number s.archivesRequested), ("blankPaths", .number s.blankPaths),
    ("archivesMissing", .number s.archivesMissing), ("archivesScanned", .number s.archivesScanned),
    ("archivesFailed", .number s.archivesFailed), ("classesParsed", .number s.classesParsed),
    ("classesWithSource", .number s.classesWithSource), ("entriesFailed", .number s.entriesFailed)]

def ofExtraction (e : Extraction) : Json :=
  .object [("mappings", .array (e.mappings.map ofMapping)),
    ("diagnostics", texts (e.diagnostics.map Diagnostic.message)), ("stats", ofStats e.stats)]

def ofHeader (h : ClassFile.Header) : Json :=
  .object [("binaryClassName", .text h.className),
    ("sourceFile", (h.sourceFile.map Json.text).getD .null)]

def ofInspection (i : Inspection) : Json :=
  .object [("path", .text i.path), ("classes", .array (i.classes.map ofHeader)),
    ("diagnostics", texts i.diagnostics)]

def mappingLine (m : Mapping) : String :=
  m.sourceFile ++ "\t" ++ m.package ++ "\t" ++ String.intercalate "," m.classNames ++ "\n"

def diagnosticLine (d : Diagnostic) : String := "! " ++ d.message ++ "\n"

def text (e : Extraction) : String :=
  String.join (e.mappings.map mappingLine ++ e.diagnostics.map diagnosticLine)

def render (f : Format) (e : Extraction) : String :=
  match f with
  | .json => (ofExtraction e).pretty
  | .text => text e

def ended (s : String) : String := if s.toList.getLast? = some '\n' then s else s ++ "\n"

end Report

end JarIndex
