import JarIndex.FileTree.Mount
import JarIndex.Session

/-!
# The program

The files that a command line names are loaded into a tree, the command is
carried out on the tree, and what it prints and writes is printed and written.
The files under a directory that is to be searched are listed on standard input,
one path on each line.
-/

set_option autoImplicit false

namespace JarIndex.Main

open CommandLine (Command)

def isDirectoryCode (code : UInt32) : Bool := code = 21

def load (t : FileTree) (path : String) : IO FileTree := do
  match ← (IO.FS.readBinFile path).toBaseIO with
  | .ok content => return t.mount path (.file content.data.toList)
  | .error (.inappropriateType _ code _) =>
    return if isDirectoryCode code then t.mount path .directory else t
  | .error _ => return t

def loadAll (t : FileTree) (paths : List String) : IO FileTree := paths.foldlM load t

def loadFor (t : FileTree) : Command → IO FileTree
  | .inspect path => load t path
  | .extract o => do
    let t ← loadAll t (o.jarsFile.toList ++ o.jars ++ o.dir.toList ++
      (o.output.map Path.ancestors).getD [])
    let t ← match o.dir with
      | none => pure t
      | some _ => do
        let listing ← (← IO.getStdin).readToEnd
        loadAll t (Text.lines listing)
    match PathList.resolve t [] o.jarsFile none with
    | .ok listed => loadAll t listed
    | .error _ => return t

def store (t : FileTree) : Command → IO Unit
  | .inspect _ => return
  | .extract o =>
    match o.output with
    | none => return
    | some path =>
      match t.read path with
      | .error _ => return
      | .ok content => do
        if let some parent := Path.parent path then
          unless parent = "" do
            IO.FS.createDirAll parent
        IO.FS.writeBinFile path content.toByteArray

def environment : IO Environment := do
  let names := [Settings.orderVariable, Settings.parallelVariable, Session.filterVariable]
  let values ← names.mapM fun name => do
    return (← IO.getEnv name).map fun value => (name, value)
  return values.filterMap id

def home : Location := ["home"]

end JarIndex.Main

open JarIndex in
def main (args : List String) : IO UInt32 := do
  let args := "jar-index" :: args
  let empty := (FileTree.empty Main.home).put Main.home .directory
  let command := ((CommandLine.parse args).map (·.command)).toOption
  let tree ← match command with
    | none => pure empty
    | some command => Main.loadFor empty command
  let outcome := Session.run tree (← Main.environment) args
  for line in outcome.log do
    IO.eprintln line
  IO.eprint outcome.report
  IO.print outcome.output
  if outcome.code < 2 then
    if let some command := command then
      Main.store outcome.tree command
  return outcome.code.toUInt32
