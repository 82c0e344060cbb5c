/-!
# Sets and maps of strings kept in order

Both are lists in strictly increasing order of their strings, by code point.
Insertion keeps the order and replaces what has the same key.
-/

set_option autoImplicit false

namespace JarIndex.Ordered

def insert (s : String) : List String → List String
  | [] => [s]
  | t :: ts =>
    if s < t then s :: t :: ts
    else if s = t then t :: ts
    else t :: insert s ts

def ofList (ss : List String) : List String := ss.foldl (fun set s => insert s set) []

def find? {ν : Type} (key : String) : List (String × ν) → Option ν
  | [] => none
  | (k, v) :: rest => if key = k then some v else find? key rest

def alter {ν : Type} (key : String) (value : Option ν → ν) :
    List (String × ν) → List (String × ν)
  | [] => [(key, value none)]
  | (k, v) :: rest =>
    if key < k then (key, value none) :: (k, v) :: rest
    else if key = k then (k, value (some v)) :: rest
    else (k, v) :: alter key value rest

end JarIndex.Ordered
