/-!
# Paths as text

A path is split at its slashes. Empty parts and dots between names mean nothing,
but a dot at the start of a relative path is a part of its own. Paths are ordered
part by part: root, dot, double dot, then names by code point.
-/

set_option autoImplicit false

namespace JarIndex.Path

inductive Part where
  | root
  | here
  | up
  | name (s : String)
  deriving DecidableEq, Repr

namespace Part

def ofSegment : String → Part
  | ".." => .up
  | s => .name s

def rank : Part → Nat × String
  | .root => (0, "")
  | .here => (1, "")
  | .up => (2, "")
  | .name s => (3, s)

def before (p q : Part) : Bool :=
  p.rank.1 < q.rank.1 || (p.rank.1 = q.rank.1 && p.rank.2 < q.rank.2)

end Part

def segments (path : String) : List String :=
  (path.toList.splitOn '/').map String.ofList

def isAbsolute (path : String) : Bool := path.toList.head? = some '/'

def isIdle (s : String) : Bool := s = "" || s = "."

def parts (path : String) : List Part :=
  let inner := fun segs : List String => (segs.filter (!isIdle ·)).map Part.ofSegment
  match segments path with
  | "" :: rest => (if isAbsolute path then [.root] else []) ++ inner rest
  | "." :: rest => .here :: inner rest
  | segs => inner segs

def partsBefore : List Part → List Part → Bool
  | [], [] => false
  | [], _ :: _ => true
  | _ :: _, [] => false
  | p :: ps, q :: qs => p.before q || (p = q && partsBefore ps qs)

def before (a b : String) : Bool := partsBefore (parts a) (parts b)

def fileName (path : String) : Option String :=
  match (parts path).getLast? with
  | some (.name s) => some s
  | _ => none

/-- What follows the last dot of a file name, unless the dot is its first character. -/
def extensionOfName (name : String) : Option String :=
  let reversed := name.toList.reverse
  let after := reversed.takeWhile (· ≠ '.')
  match reversed.drop after.length with
  | _ :: _ :: _ => some (String.ofList after.reverse)
  | _ => none

def extension (path : String) : Option String := (fileName path).bind extensionOfName

def join (dir name : String) : String :=
  if dir.toList.getLast? = some '/' then dir ++ name else dir ++ "/" ++ name

def ofSegments (absolute : Bool) (segs : List String) : String :=
  if absolute && segs.length = 1 then "/" else String.intercalate "/" segs

/-- A path and the directories it is in, innermost first, from its segments in reverse. A
relative path ends at the empty one. -/
def ancestorsOf (absolute : Bool) : List String → List String
  | [] => []
  | [first] =>
    if absolute then ["/"] else if first = "" then [""] else [first, ""]
  | s :: rest =>
    if isIdle s then ancestorsOf absolute rest
    else ofSegments absolute (s :: rest).reverse :: ancestorsOf absolute rest

def ancestors (path : String) : List String :=
  ancestorsOf (isAbsolute path) (segments path).reverse

def parent (path : String) : Option String := (ancestors path).tail.head?

end JarIndex.Path
