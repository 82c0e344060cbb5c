import JarIndex.Bytes

/-!
# Bits of a byte string

The bits of each byte come lowest first. A stream holds what is left of the
byte it is in and the bytes after it; its size bounds every loop that reads it.
-/

set_option autoImplicit false

namespace JarIndex.Deflate

/-- Why a stream ends without a result: it breaks off, or no stream goes on like this. -/
inductive Fault where
  | incomplete
  | corrupt
  deriving DecidableEq, Repr

theorem ok_of_bind {ε α β : Type} {x : Except ε α} {f : α → Except ε β} {b : β}
    (h : x >>= f = .ok b) : ∃ a, x = .ok a ∧ f a = .ok b := by
  cases x with
  | error e => cases h
  | ok a => exact ⟨a, rfl, h⟩

structure BitStream where
  held : List Bool
  rest : Bytes
  deriving DecidableEq, Repr

namespace BitStream

def ofBytes (bs : Bytes) : BitStream := ⟨[], bs⟩

def size (s : BitStream) : Nat := s.held.length + 8 * s.rest.length

def bitsOf (b : UInt8) : List Bool :=
  let n := b.toNat
  [n.testBit 0, n.testBit 1, n.testBit 2, n.testBit 3,
    n.testBit 4, n.testBit 5, n.testBit 6, n.testBit 7]

def bit (s : BitStream) : Except Fault (Bool × BitStream) :=
  match s with
  | ⟨b :: held, rest⟩ => .ok (b, ⟨held, rest⟩)
  | ⟨[], x :: rest⟩ => .ok (x.toNat.testBit 0, ⟨(bitsOf x).tail, rest⟩)
  | ⟨[], []⟩ => .error .incomplete

theorem size_bit {s t : BitStream} {b : Bool} (h : s.bit = .ok (b, t)) :
    t.size + 1 = s.size := by
  obtain ⟨held, rest⟩ := s
  cases held with
  | cons a held =>
    cases h
    simp [size]
    omega
  | nil =>
    cases rest with
    | nil => cases h
    | cons x rest =>
      cases h
      simp [size, bitsOf]
      omega

/-- A number of `n` bits, lowest first. -/
def number : Nat → BitStream → Except Fault (Nat × BitStream)
  | 0, s => .ok (0, s)
  | n + 1, s => do
    let (b, s) ← s.bit
    let (v, s) ← number n s
    return (b.toNat + 2 * v, s)

theorem size_number {n v : Nat} {s t : BitStream} (h : number n s = .ok (v, t)) :
    t.size + n = s.size := by
  induction n generalizing v s t with
  | zero => cases h; rfl
  | succ n ih =>
    obtain ⟨⟨b, u⟩, hb, h⟩ := ok_of_bind h
    obtain ⟨⟨w, x⟩, hw, h⟩ := ok_of_bind h
    cases h
    have := size_bit hb
    have := ih hw
    omega

/-- Whole bytes, from the next byte boundary on. -/
def bytes (n : Nat) (s : BitStream) : Except Fault (Bytes × BitStream) :=
  match Bytes.split? n s.rest with
  | some (front, rest) => .ok (front, ⟨[], rest⟩)
  | none => .error .incomplete

theorem size_bytes {n : Nat} {bs : Bytes} {s t : BitStream} (h : bytes n s = .ok (bs, t)) :
    t.size ≤ s.size := by
  unfold bytes at h
  split at h
  · rename_i front rest hs
    cases h
    have := (Bytes.split?_eq_some.mp hs).2
    simp [size, this]
    omega
  · cases h

end BitStream

end JarIndex.Deflate
