import JarIndex.Diagnostic
import JarIndex.FileTree.Access
import JarIndex.Log

/-!
# Scanning one archive

A path with nothing there is passed over. An archive that cannot be opened or
has no readable directory gives one diagnostic. Otherwise every entry is visited
on its own: one whose local header cannot be read is reported by its number, one
that is named like a class file gives a header or a diagnostic, and the others
give nothing.
-/

set_option autoImplicit false

namespace JarIndex

open Archive (Member)

/-- The order in which the class entries of an archive are visited: as its directory lists
them, or by name. -/
inductive EntryOrder where
  | native
  | canonical
  deriving DecidableEq, Repr

inductive ScanStatus where
  | missing
  | failed
  | scanned
  deriving DecidableEq, Repr

structure Scan where
  path : String
  status : ScanStatus
  classEntries : Nat
  headers : List ClassFile.Header
  diagnostics : List Diagnostic
  deriving DecidableEq, Repr

namespace Scan

def classSuffix : String := ".class"

def isClassEntry (m : Member) : Bool := classSuffix.toList.isSuffixOf m.name.toList

def warn (d : Diagnostic) : Run Unit := .log ⟨.warn, .archive, d.message⟩

def debug (message : String) : Run Unit := .log ⟨.debug, .archive, message⟩

def failed (path : String) (d : Diagnostic) : Run Scan := do
  warn d
  return ⟨path, .failed, 0, [], [d]⟩

/-- The class entries among members numbered from `n`, and the diagnostics of the members
whose local header cannot be read. -/
def listed (path : String) (bs : Bytes) : Nat → List Member → List Member × List Diagnostic
  | _, [] => ([], [])
  | n, m :: ms =>
    let (members, diagnostics) := listed path bs (n + 1) ms
    match m.dataOffset bs with
    | .error f => (members, .unreadEntry path ("#" ++ toString n) f :: diagnostics)
    | .ok _ => (if isClassEntry m then m :: members else members, diagnostics)

def arranged (order : EntryOrder) (ms : List Member) : List Member :=
  match order with
  | .native => ms
  | .canonical => ms.mergeSort fun a b => decide (a.name ≤ b.name)

inductive Visit where
  | header (h : ClassFile.Header)
  | diagnostic (d : Diagnostic)
  | abort
  deriving DecidableEq, Repr

def visit (path : String) (bs : Bytes) (m : Member) : Visit :=
  match m.content bs with
  | .error .abort => .abort
  | .error (.fault f) => .diagnostic (.unreadEntry path m.name f)
  | .ok content =>
    match ClassFile.parse content with
    | .ok h => .header h
    | .error e => .diagnostic (.undecoded path m.name e)

def visitAll (path : String) (bs : Bytes) :
    List Member → Run (List ClassFile.Header × List Diagnostic)
  | [] => pure ([], [])
  | m :: ms =>
    match visit path bs m with
    | .abort => .abort
    | .header h => do
      let (hs, ds) ← visitAll path bs ms
      return (h :: hs, ds)
    | .diagnostic d => do
      warn d
      let (hs, ds) ← visitAll path bs ms
      return (hs, d :: ds)

def ofMembers (path : String) (order : EntryOrder) (bs : Bytes) (ms : List Member) : Run Scan := do
  let (entries, unlisted) := listed path bs 0 ms
  unlisted.forM warn
  let (headers, diagnostics) ← visitAll path bs (arranged order entries)
  debug ("scanned " ++ path ++ ": " ++ toString entries.length ++ " class entries, " ++
    toString headers.length ++ " decoded")
  return ⟨path, .scanned, entries.length, headers, unlisted ++ diagnostics⟩

def run (t : FileTree) (order : EntryOrder) (path : String) : Run Scan :=
  if !t.doesExist path then do
    debug ("skipping missing archive " ++ path)
    return ⟨path, .missing, 0, [], []⟩
  else match t.openNode path with
    | .error f => failed path (.unopened path f)
    | .ok (.file bs) =>
      match Archive.members bs with
      | .error f => failed path (.notAnArchive path f)
      | .ok ms => ofMembers path order bs ms
    | .ok _ => failed path (.unopened path .noDevice)

end Scan

end JarIndex
