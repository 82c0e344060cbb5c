import JarIndex.Bytes

/-!
# UTF-8 with replacements

Every byte string reads as text. A well-formed character stands for itself; the
longest start of one that breaks off, or a byte that starts none, stands for
U+FFFD.
-/

set_option autoImplicit false

namespace JarIndex.LossyUtf8

def replacement : Char := Char.ofNat 0xFFFD

def isContinuation (b : UInt8) : Bool := 0x80 ≤ b && b < 0xC0

/-- The bytes that may follow a lead byte directly, and how many follow in all. -/
def followers (lead : UInt8) : Option (UInt8 × UInt8 × Nat) :=
  if 0xC2 ≤ lead && lead < 0xE0 then some (0x80, 0xBF, 1)
  else if lead = 0xE0 then some (0xA0, 0xBF, 2)
  else if lead = 0xED then some (0x80, 0x9F, 2)
  else if 0xE1 ≤ lead && lead < 0xF0 then some (0x80, 0xBF, 2)
  else if lead = 0xF0 then some (0x90, 0xBF, 3)
  else if 0xF1 ≤ lead && lead < 0xF4 then some (0x80, 0xBF, 3)
  else if lead = 0xF4 then some (0x80, 0x8F, 3)
  else none

def leadBits (lead : UInt8) : Nat → Nat
  | 1 => lead.toNat % 32
  | 2 => lead.toNat % 16
  | _ => lead.toNat % 8

/-- What is still owed to the character under way: its bits so far, how many bytes
are missing, and the range the next of them must lie in. -/
structure Pending where
  bits : Nat
  missing : Nat
  low : UInt8
  high : UInt8

def start (b : UInt8) : Except Char Pending :=
  if b < 0x80 then .error (Char.ofNat b.toNat)
  else match followers b with
    | none => .error replacement
    | some (low, high, n) => .ok ⟨leadBits b n, n, low, high⟩

def decodeFrom : Option Pending → Bytes → List Char
  | none, [] => []
  | some _, [] => [replacement]
  | none, b :: bs =>
    match start b with
    | .error c => c :: decodeFrom none bs
    | .ok p => decodeFrom (some p) bs
  | some p, b :: bs =>
    if p.low ≤ b && b ≤ p.high then
      let bits := p.bits * 64 + b.toNat % 64
      if p.missing = 1 then Char.ofNat bits :: decodeFrom none bs
      else decodeFrom (some ⟨bits, p.missing - 1, 0x80, 0xBF⟩) bs
    else
      match start b with
      | .error c => replacement :: c :: decodeFrom none bs
      | .ok q => replacement :: decodeFrom (some q) bs

def decode (bs : Bytes) : String := String.ofList (decodeFrom none bs)

end JarIndex.LossyUtf8
