import JarIndex.CommandLine.Parse
import JarIndex.LogFilter
import JarIndex.PathList

/-!
# A run of the program

A command line is read, the command is carried out on a tree of files, and what
comes of it is the exit code, the output, the report of a failure, the events
shown and the tree afterwards. A run that is aborted ends there: it prints and
writes nothing.
-/

set_option autoImplicit false

namespace JarIndex

open CommandLine (Command ExtractOptions Invocation UsageError)

def classExtension : String := "class"

namespace Inspection

def ofClass (t : FileTree) (path : String) : Except Failure Inspection :=
  match t.read path with
  | .error f => .error (.classRead path f)
  | .ok content =>
    match ClassFile.parse content with
    | .error e => .error (.classDecode path e)
    | .ok h => .ok ⟨path, [h], []⟩

def ofScan (s : Scan) : Except Failure Inspection :=
  match s.status with
  | .missing => .error (.notFound s.path)
  | _ => .ok ⟨s.path, s.headers, s.diagnostics.map Diagnostic.message⟩

def run (t : FileTree) (path : String) : Run (Except Failure Inspection) :=
  if Path.extension path = some classExtension then pure (ofClass t path)
  else do return ofScan (← Scan.run t .canonical path)

end Inspection

structure Effect where
  tree : FileTree
  output : String
  failure : Option Failure

namespace Effect

def failed (t : FileTree) (f : Failure) : Effect := ⟨t, "", some f⟩

end Effect

namespace Session

/-- Writes a report to a file, in a directory that is made if it is not there. -/
def writeFile (t : FileTree) (path content : String) : FileTree × Option Failure :=
  let (t, made) :=
    match Path.parent path with
    | none => (t, none)
    | some parent =>
      if parent = "" then (t, none)
      else match t.makeDirectories parent with
        | (t, none) => (t, none)
        | (t, some f) => (t, some (Failure.outputDirectory parent f))
  match made with
  | some f => (t, some f)
  | none =>
    match t.write path (utf8Bytes content) with
    | .ok t => (t, none)
    | .error f => (t, some (.output path f))

def writeReport (t : FileTree) (o : ExtractOptions) (e : Extraction) : Effect :=
  let content := Report.render o.format e
  match o.output with
  | none => ⟨t, Report.ended content, none⟩
  | some path =>
    let (t, failure) := writeFile t path content
    ⟨t, "", failure⟩

def conclude (o : ExtractOptions) (e : Extraction) (effect : Effect) : Effect :=
  match effect.failure with
  | some _ => effect
  | none =>
    if o.strict && !e.diagnostics.isEmpty then
      { effect with failure := some (.incomplete e.diagnostics.length) }
    else effect

def extract (t : FileTree) (env : Environment) (o : ExtractOptions) : Run Effect :=
  match (Settings.resolve env o.order o.parallel).mapError Failure.settings with
  | .error f => pure (.failed t f)
  | .ok settings =>
    match PathList.resolve t o.jars o.jarsFile o.dir with
    | .error f => pure (.failed t f)
    | .ok paths => do
      let e ← Extraction.run t settings paths
      return conclude o e (writeReport t o e)

def inspect (t : FileTree) (path : String) : Run Effect := do
  match ← Inspection.run t path with
  | .error f => return .failed t f
  | .ok i => return ⟨t, (Report.ofInspection i).pretty ++ "\n", none⟩

def command (t : FileTree) (env : Environment) : Command → Run Effect
  | .extract o => extract t env o
  | .inspect path => inspect t path

structure Outcome where
  code : Nat
  output : String
  report : String
  log : List String
  tree : FileTree

def filterVariable : String := "RUST_LOG"

def ofUsageError (t : FileTree) (e : UsageError) : Outcome :=
  ⟨if e.isHelp then 0 else 2, "", "", [], t⟩

def ofRun (t : FileTree) (f : LogFilter) (r : Run Effect) : Outcome :=
  let log := f.lines r.events
  match r.value? with
  | none => ⟨101, "", "", log, t⟩
  | some e =>
    match e.failure with
    | none => ⟨0, e.output, "", log, e.tree⟩
    | some failure => ⟨1, e.output, failure.report, log, e.tree⟩

def run (t : FileTree) (env : Environment) (args : List String) : Outcome :=
  match CommandLine.parse args with
  | .error e => ofUsageError t e
  | .ok invocation =>
    ofRun t (LogFilter.resolve (env.lookup filterVariable) invocation.verbose)
      (command t env invocation.command)

end Session

end JarIndex
