import JarIndex.Deflate.BitStream

/-!
# Canonical prefix codes

A code is given by the length of each symbol's word, zero for a symbol without
one. Shorter words come first, and words of one length in the order of their
symbols. The words must fill the code space; where `sparse` allows it, a code of
at most one word need not.
-/

set_option autoImplicit false

namespace JarIndex.Deflate

inductive CodeTree where
  | empty
  | leaf (symbol : Nat)
  | node (zero one : CodeTree)
  deriving DecidableEq, Repr

namespace CodeTree

def insert : List Bool → Nat → CodeTree → CodeTree
  | [], v, _ => .leaf v
  | b :: bs, v, t =>
    match b, t with
    | false, .node z o => .node (insert bs v z) o
    | true, .node z o => .node z (insert bs v o)
    | false, _ => .node (insert bs v .empty) .empty
    | true, _ => .node .empty (insert bs v .empty)

/-- Bits that leave every word after the tenth bit read as symbol zero. -/
def settle : Nat → CodeTree → CodeTree
  | depth, .empty => if 10 < depth then .leaf 0 else .empty
  | _, .leaf v => .leaf v
  | depth, .node z o => .node (settle (depth + 1) z) (settle (depth + 1) o)

def decode : CodeTree → BitStream → Except Fault (Nat × BitStream)
  | .empty, _ => .error .corrupt
  | .leaf v, s => .ok (v, s)
  | .node z o, s =>
    match s.bit with
    | .error e => .error e
    | .ok (false, s) => decode z s
    | .ok (true, s) => decode o s

theorem size_decode {t : CodeTree} {s u : BitStream} {v : Nat} (h : t.decode s = .ok (v, u)) :
    u.size ≤ s.size := by
  induction t generalizing s with
  | empty => cases h
  | leaf w => cases h; exact Nat.le_refl _
  | node z o ihz iho =>
    unfold decode at h
    split at h
    · cases h
    · rename_i x hb
      have := BitStream.size_bit hb
      have := ihz h
      omega
    · rename_i x hb
      have := BitStream.size_bit hb
      have := iho h
      omega

end CodeTree

/-- The words that start with each bit; no word is empty. -/
structure Code where
  zero : CodeTree
  one : CodeTree
  deriving DecidableEq, Repr

namespace Code

def decode (c : Code) (s : BitStream) : Except Fault (Nat × BitStream) :=
  (CodeTree.node c.zero c.one).decode s

theorem size_decode {c : Code} {s u : BitStream} {v : Nat} (h : c.decode s = .ok (v, u)) :
    u.size < s.size := by
  unfold decode CodeTree.decode at h
  split at h
  · cases h
  · rename_i x hb
    have := BitStream.size_bit hb
    have := CodeTree.size_decode h
    omega
  · rename_i x hb
    have := BitStream.size_bit hb
    have := CodeTree.size_decode h
    omega

def maxLength : Nat := 15

/-- The share of the code space that words of these lengths take, in words of the
greatest length. -/
def filled (lengths : List Nat) : Nat :=
  (lengths.map fun l => if l = 0 then 0 else 1 <<< (maxLength - l)).foldr (· + ·) 0

def used (lengths : List Nat) : Nat := (lengths.filter (· ≠ 0)).length

def firstWord (lengths : List Nat) (length : Nat) : Nat :=
  (lengths.map fun l => if 0 < l ∧ l < length then 1 <<< (length - l) else 0).foldr (· + ·) 0

def wordBits (length word : Nat) : List Bool :=
  (List.range length).reverse.map word.testBit

/-- Gives the symbols from `v` on their words; `next` holds the next free word of each
length. -/
def assign : List Nat → Nat → Array Nat → CodeTree → CodeTree
  | [], _, _, t => t
  | 0 :: ls, v, next, t => assign ls (v + 1) next t
  | l :: ls, v, next, t =>
    assign ls (v + 1) (next.modify l (· + 1)) (t.insert (wordBits l (next.getD l 0)) v)

def ofLengths? (sparse : Bool) (lengths : List Nat) : Option Code :=
  if filled lengths = 1 <<< maxLength ∨ (sparse ∧ used lengths ≤ 1) then
    let next := ((List.range (maxLength + 1)).map (firstWord lengths)).toArray
    match (assign lengths 0 next .empty).settle 0 with
    | .node z o => some ⟨z, o⟩
    | _ => some ⟨.empty, .empty⟩
  else none

end Code

end JarIndex.Deflate
