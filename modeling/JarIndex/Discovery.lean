import JarIndex.FileTree.Access
import JarIndex.Ignore.Rules

/-!
# Finding jars under a directory

Every file named like a jar counts that is reached through directories which can
be listed and of which no part is ignored. Symbolic links are not entered, the
given directory apart, but one that leads to a file counts as a file. Ignore
rules stand in the directories on the way, and in those above the given one.
-/

set_option autoImplicit false

namespace JarIndex.Discovery

open Ignore (Rules)

def ignoreFile : String := ".ignore"

def jarExtension : String := "jar"

structure NotADirectory where
  path : String
  deriving DecidableEq, Repr

def NotADirectory.message (e : NotADirectory) : String := "not a directory: " ++ e.path

def rulesIn (t : FileTree) (directory : String) : Option Rules :=
  match t.read (Path.join directory ignoreFile) with
  | .ok content => some (Rules.ofContent directory content)
  | .error _ => none

def pathOf (dir : String) (names : List String) : String := names.foldl Path.join dir

def absolute (l : Location) : String := "/" ++ String.intercalate "/" l

def properStarts {α : Type} (l : List α) : List (List α) :=
  (List.range l.length).reverse.map fun n => l.take n

/-- A path under `dir` as the rules above it see it, from where `dir` really is. -/
def seenFromAbove (dir real path : String) : String :=
  if Path.parts dir = [.here] then Path.join real path
  else Path.join real (Rules.dropIf "/" (Rules.dropIf (Rules.undotted dir) path))

structure Walk where
  tree : FileTree
  dir : String
  base : Location

namespace Walk

def rulesAbove (w : Walk) : List Rules :=
  (properStarts w.base).filterMap fun l => rulesIn w.tree (absolute l)

def rulesInside (w : Walk) (names : List String) : List Rules :=
  (properStarts names).filterMap fun l => rulesIn w.tree (pathOf w.dir l)

def isDirectoryAt (w : Walk) (names : List String) : Bool :=
  w.tree.find? (w.base ++ names) = some .directory

def isIgnored (w : Walk) (above : List Rules) (names : List String) : Bool :=
  let path := Rules.undotted (pathOf w.dir names)
  let isDirectory := w.isDirectoryAt names
  let verdict :=
    match Rules.firstVerdict (w.rulesInside names) path isDirectory with
    | some v => some v
    | none =>
      Rules.firstVerdict above (seenFromAbove w.dir (absolute w.base) path) isDirectory
  verdict = some .ignored

def canList (w : Walk) (names : List String) : Bool :=
  w.isDirectoryAt names && (pathOf w.dir names).utf8ByteSize ≤ FileTree.maxPath

def isVisited (w : Walk) (above : List Rules) (names : List String) : Bool :=
  (properStarts names).all fun l => w.canList l && (l = [] || !w.isIgnored above l)

def isJar (w : Walk) (above : List Rules) (names : List String) : Bool :=
  names ≠ [] && Path.extension (pathOf w.dir names) = some jarExtension &&
    w.isVisited above names && !w.isIgnored above names && w.tree.isFile (pathOf w.dir names)

def below (w : Walk) : List (List String) :=
  w.tree.nodes.filterMap fun (l, _) =>
    if w.base.isPrefixOf l then some (l.drop w.base.length) else none

def jars (w : Walk) : List String :=
  let above := w.rulesAbove
  (((w.below.filter (w.isJar above)).map (pathOf w.dir))).mergeSort
    fun a b => !Path.before b a

end Walk

/-- A directory that is called by a single dash stands for standard input and holds nothing. -/
def isStandardInput (dir : String) : Bool := Path.parts dir = [.name "-"]

def jars (t : FileTree) (dir : String) : Except NotADirectory (List String) :=
  match t.node dir with
  | .ok (base, .directory) => .ok (if isStandardInput dir then [] else (Walk.mk t dir base).jars)
  | _ => .error ⟨dir⟩

end JarIndex.Discovery
