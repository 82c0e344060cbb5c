import JarIndex.ClassFile.Header
import JarIndex.Mapping.Ordered

/-!
# One mapping per source file

Class headers are folded into the set of class names of each source file and
the package last seen for it. A header without a source file contributes
nothing.
-/

set_option autoImplicit false

namespace JarIndex

open ClassFile (Header packageOf)

structure Mapping where
  sourceFile : String
  classNames : List String
  package : String
  deriving DecidableEq, Repr

structure Aggregator where
  classes : List (String × List String)
  packages : List (String × String)
  deriving DecidableEq, Repr

namespace Aggregator

def empty : Aggregator := ⟨[], []⟩

def addClass (a : Aggregator) (className sourceFile : String) : Aggregator where
  classes := Ordered.alter sourceFile (fun names => Ordered.insert className (names.getD [])) a.classes
  packages := Ordered.alter sourceFile (fun _ => packageOf className) a.packages

/-- Whether the header has a source file, and the aggregator with it. -/
def add (a : Aggregator) (h : Header) : Bool × Aggregator :=
  match h.sourceFile with
  | some source => (true, a.addClass h.className source)
  | none => (false, a)

def addAll (a : Aggregator) (hs : List Header) : Aggregator :=
  hs.foldl (fun a h => (a.add h).2) a

def size (a : Aggregator) : Nat := a.classes.length

def isEmpty (a : Aggregator) : Bool := a.classes.isEmpty

def packageOfFirst (names : List String) : String :=
  match names with
  | [] => ""
  | name :: _ => packageOf name

def finish (a : Aggregator) : List Mapping :=
  a.classes.map fun (source, names) =>
    ⟨source, names, (Ordered.find? source a.packages).getD (packageOfFirst names)⟩

end Aggregator

end JarIndex
