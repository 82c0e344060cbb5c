import JarIndex.Bytes

/-!
# Patterns over bytes

Regular patterns of the kind that globs need: one byte or any number of bytes of
a set, one pattern after another, and a choice of two.
-/

set_option autoImplicit false

namespace JarIndex.Ignore

structure ByteSet where
  negated : Bool
  ranges : List (UInt8 × UInt8)
  deriving DecidableEq, Repr

namespace ByteSet

def all : ByteSet := ⟨true, []⟩

def single (b : UInt8) : ByteSet := ⟨false, [(b, b)]⟩

def slash : UInt8 := 0x2F

def notSlash : ByteSet := ⟨true, [(slash, slash)]⟩

def contains (s : ByteSet) (b : UInt8) : Bool :=
  s.negated != s.ranges.any fun r => r.1 ≤ b && b ≤ r.2

end ByteSet

inductive Pattern where
  | empty
  | one (s : ByteSet)
  | many (s : ByteSet)
  | seq (a b : Pattern)
  | alt (a b : Pattern)
  deriving DecidableEq, Repr

namespace Pattern

def literal (bs : Bytes) : Pattern := bs.foldr (fun b p => .seq (.one (.single b)) p) .empty

def acceptsMany (s : ByteSet) (k : Bytes → Bool) : Bytes → Bool
  | [] => k []
  | b :: bs => k (b :: bs) || (s.contains b && acceptsMany s k bs)

/-- Whether the pattern matches a start of the bytes of which `k` accepts the rest. -/
def accepts : Pattern → (Bytes → Bool) → Bytes → Bool
  | .empty, k, bs => k bs
  | .one _, _, [] => false
  | .one s, k, b :: bs => s.contains b && k bs
  | .many s, k, bs => acceptsMany s k bs
  | .seq a b, k, bs => a.accepts (fun rest => b.accepts k rest) bs
  | .alt a b, k, bs => a.accepts k bs || b.accepts k bs

def isMatch (p : Pattern) (bs : Bytes) : Bool := p.accepts List.isEmpty bs

end Pattern

end JarIndex.Ignore
