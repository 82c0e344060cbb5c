import JarIndex.Failure
import JarIndex.Text.Lines

/-!
# The archives a run is asked for

Paths given one by one come first, then the lines of a list file, then the jars
found under a directory. Nothing is dropped or altered.
-/

set_option autoImplicit false

namespace JarIndex.PathList

def ofFile (t : FileTree) (path : String) : Except Failure (List String) :=
  match t.readText path with
  | .ok text => .ok (Text.lines text)
  | .error f => .error (.pathList path f)

def ofDirectory (t : FileTree) (dir : String) : Except Failure (List String) :=
  match Discovery.jars t dir with
  | .ok jars => .ok jars
  | .error e => .error (.discovery e)

def optional (read : String → Except Failure (List String)) :
    Option String → Except Failure (List String)
  | none => .ok []
  | some path => read path

def resolve (t : FileTree) (jars : List String) (jarsFile dir : Option String) :
    Except Failure (List String) := do
  let listed ← optional (ofFile t) jarsFile
  let found ← optional (ofDirectory t) dir
  return jars ++ listed ++ found

end JarIndex.PathList
