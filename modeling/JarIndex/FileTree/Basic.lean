import JarIndex.Bytes

/-!
# A tree of files

Every node has a location, the names that lead to it from the root. The root is a
directory; a node is reachable only if the locations above it are directories
too. Relative paths start at the tree's home.
-/

set_option autoImplicit false

namespace JarIndex

inductive Node where
  | file (content : Bytes)
  | directory
  | link (target : String)
  | socket
  deriving DecidableEq, Repr

abbrev Location := List String

structure FileTree where
  home : Location
  nodes : List (Location × Node)
  nodup : (nodes.map Prod.fst).Nodup

inductive FileFault where
  | noEntry
  | noDeviceOrAddress
  | alreadyExists
  | noDevice
  | notDirectory
  | isDirectory
  | nameTooLong
  | tooManyLinks
  | nulInName
  | notText
  deriving DecidableEq, Repr

def FileFault.message : FileFault → String
  | .noEntry => "No such file or directory (os error 2)"
  | .noDeviceOrAddress => "No such device or address (os error 6)"
  | .alreadyExists => "File exists (os error 17)"
  | .noDevice => "No such device (os error 19)"
  | .notDirectory => "Not a directory (os error 20)"
  | .isDirectory => "Is a directory (os error 21)"
  | .nameTooLong => "File name too long (os error 36)"
  | .tooManyLinks => "Too many levels of symbolic links (os error 40)"
  | .nulInName => "file name contained an unexpected NUL byte"
  | .notText => "stream did not contain valid UTF-8"

namespace FileTree

def empty (home : Location) : FileTree := ⟨home, [], List.nodup_nil⟩

def find? (t : FileTree) (loc : Location) : Option Node :=
  if loc = [] then some .directory else t.nodes.lookup loc

def put (t : FileTree) (loc : Location) (n : Node) : FileTree where
  home := t.home
  nodes := (loc, n) :: t.nodes.filter (·.1 ≠ loc)
  nodup := by
    rw [List.map_cons, List.nodup_cons]
    refine ⟨by simp, ?_⟩
    exact t.nodup.sublist (List.filter_sublist.map _)

end FileTree

end JarIndex
