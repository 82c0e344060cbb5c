import JarIndex.FileTree.Lookup

/-!
# Reading and writing files
-/

set_option autoImplicit false

namespace JarIndex.FileTree

/-- What opening a path for reading gives. A directory opens, but has no content. -/
def openNode (t : FileTree) (path : String) : Except FileFault Node :=
  match t.node path with
  | .ok (_, .socket) => .error .noDeviceOrAddress
  | .ok (_, n) => .ok n
  | .error f => .error f

def read (t : FileTree) (path : String) : Except FileFault Bytes :=
  match t.openNode path with
  | .ok (.file content) => .ok content
  | .ok _ => .error .isDirectory
  | .error f => .error f

def readText (t : FileTree) (path : String) : Except FileFault String :=
  match t.read path with
  | .ok content =>
    match Bytes.utf8? content with
    | some s => .ok s
    | none => .error .notText
  | .error f => .error f

/-- Replaces or creates the file that a path leads to. -/
def write (t : FileTree) (path : String) (content : Bytes) : Except FileFault FileTree :=
  match t.resolve .create path with
  | .ok (.present l (.file _)) => .ok (t.put l (.file content))
  | .ok (.present _ .socket) => .error .noDeviceOrAddress
  | .ok (.present _ _) => .error .isDirectory
  | .ok (.absent l) => .ok (t.put l (.file content))
  | .error f => .error f

def makeDirectory (t : FileTree) (path : String) : Except FileFault FileTree :=
  match t.resolve .noFollow path with
  | .ok (.present _ _) => .error .alreadyExists
  | .ok (.absent l) => .ok (t.put l .directory)
  | .error f => .error f

/-- Makes the first of some nested directories, and those after it that it needs. What was
made stays made when one of them cannot be. -/
def makeNested (t : FileTree) : List String → FileTree × Option FileFault
  | [] => (t, none)
  | path :: up =>
    if path = "" then (t, none)
    else
      let accept (t : FileTree) (f : FileFault) :=
        if t.isDirectory path then (t, none) else (t, some f)
      match t.makeDirectory path with
      | .ok t => (t, none)
      | .error .noEntry =>
        match t.makeNested up with
        | (t, some f) => (t, some f)
        | (t, none) =>
          match t.makeDirectory path with
          | .ok t => (t, none)
          | .error f => accept t f
      | .error f => accept t f

def makeDirectories (t : FileTree) (path : String) : FileTree × Option FileFault :=
  t.makeNested (Path.ancestors path)

end JarIndex.FileTree
