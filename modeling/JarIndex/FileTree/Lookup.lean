import JarIndex.FileTree.Basic
import JarIndex.Path

/-!
# Where a path leads

Names are walked one by one from a directory; a symbolic link on the way is
replaced by the names of its target. A slash at the end of a path stands for an
empty last name, which only a directory has.
-/

set_option autoImplicit false

namespace JarIndex.FileTree

def maxPath : Nat := 4095

def maxName : Nat := 255

def maxLinks : Nat := 40

/-- What the node at the end is wanted for: `create` may make it, and neither it nor
`noFollow` looks behind an empty last name. -/
inductive Purpose where
  | follow
  | noFollow
  | create
  deriving DecidableEq, Repr

inductive Stop where
  | present (loc : Location) (n : Node)
  | absent (loc : Location)
  | fault (f : FileFault)
  | jump (base : Location) (target : String) (rest : List String)
  deriving DecidableEq, Repr

def names (path : String) : List String :=
  let segs := (Path.segments path).filter (· ≠ "")
  if path.toList.getLast? = some '/' && segs ≠ [] then segs ++ [""] else segs

/-- Walks names until the end or the first symbolic link on the way. -/
def advance (t : FileTree) (p : Purpose) : Location → List String → Stop
  | loc, [] =>
    match t.find? loc with
    | some n => .present loc n
    | none => .fault .noEntry
  | loc, name :: rest =>
    match t.find? loc with
    | some .directory =>
      if Path.isIdle name then advance t p loc rest
      else if name = ".." then advance t p loc.dropLast rest
      else if p = .create ∧ rest = [""] then .fault .isDirectory
      else if maxName < name.utf8ByteSize then .fault .nameTooLong
      else
        let next := loc ++ [name]
        match t.find? next with
        | none => if rest = [] then .absent next else .fault .noEntry
        | some (.link target) =>
          if rest = [] ∧ p = .noFollow then .present next (.link target)
          else .jump loc target rest
        | some _ => advance t p next rest
    | some _ => .fault .notDirectory
    | none => .fault .noEntry

/-- A node, or a free place in a directory. -/
inductive Target where
  | present (loc : Location) (n : Node)
  | absent (loc : Location)
  deriving DecidableEq, Repr

/-- Walks names behind at most `links` symbolic links. -/
def resolveFrom (t : FileTree) (p : Purpose) (links : Nat) (loc : Location)
    (ns : List String) : Except FileFault Target :=
  match t.advance p loc ns with
  | .present l n => .ok (.present l n)
  | .absent l => .ok (.absent l)
  | .fault f => .error f
  | .jump base target rest =>
    match links with
    | 0 => .error .tooManyLinks
    | links + 1 =>
      t.resolveFrom p links (if Path.isAbsolute target then [] else base) (names target ++ rest)

def start (t : FileTree) (path : String) : Location :=
  if Path.isAbsolute path then [] else t.home

def resolve (t : FileTree) (p : Purpose) (path : String) : Except FileFault Target :=
  if path.toList.contains '\x00' then .error .nulInName
  else if path = "" then .error .noEntry
  else if maxPath < path.utf8ByteSize then .error .nameTooLong
  else t.resolveFrom p maxLinks (t.start path) (names path)

def node (t : FileTree) (path : String) : Except FileFault (Location × Node) :=
  match t.resolve .follow path with
  | .ok (.present l n) => .ok (l, n)
  | .ok (.absent _) => .error .noEntry
  | .error f => .error f

def doesExist (t : FileTree) (path : String) : Bool :=
  match t.node path with
  | .ok _ => true
  | .error _ => false

def isDirectory (t : FileTree) (path : String) : Bool :=
  match t.node path with
  | .ok (_, .directory) => true
  | _ => false

def isFile (t : FileTree) (path : String) : Bool :=
  match t.node path with
  | .ok (_, .file _) => true
  | _ => false

end JarIndex.FileTree
