import JarIndex.FileTree.Lookup

/-!
# Putting together a tree

A node is mounted at a path, and the directories on the way to it are made where
nothing is. Links on the way are followed.
-/

set_option autoImplicit false

namespace JarIndex.FileTree

/-- The location that names lead to from a directory, with directories made on the way. -/
def enter (t : FileTree) (loc : Location) : List String → FileTree × Location
  | [] => (t, loc)
  | name :: rest =>
    let next := loc ++ [name]
    match t.find? next with
    | none => enter (t.put next .directory) next rest
    | some (.link _) =>
      match t.resolveFrom .follow maxLinks loc [name] with
      | .ok (.present found _) => enter t found rest
      | _ => enter t next rest
    | some _ => enter t next rest

/-- The tree with a node at a path; a directory that is there stays. -/
def mount (t : FileTree) (path : String) (n : Node) : FileTree :=
  let names := (Path.segments path).filter (!Path.isIdle ·)
  match names.getLast? with
  | none => t
  | some name =>
    let (t, loc) := t.enter (t.start path) names.dropLast
    if n = .directory ∧ (t.find? (loc ++ [name])).isSome then t else t.put (loc ++ [name]) n

end JarIndex.FileTree
