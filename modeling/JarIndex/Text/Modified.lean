import JarIndex.Bytes
import JarIndex.Text.Utf16

/-!
# Modified UTF-8

The text form of class files: 16-bit units in groups of one, two or three
bytes, the zero unit in two and each surrogate in a group of its own. Text in
standard UTF-8 is read as well, and wins where both forms apply.
-/

set_option autoImplicit false

namespace JarIndex.ModifiedUtf8

def isContinuation (b : UInt8) : Bool := 0x80 ≤ b && b < 0xC0

def low6 (b : UInt8) : Nat := b.toNat % 64

def pair (a b : UInt8) : UInt16 := UInt16.ofNat (a.toNat % 32 * 64 + low6 b)

def triple (a b c : UInt8) : UInt16 :=
  UInt16.ofNat (a.toNat % 16 * 4096 + low6 b * 64 + low6 c)

/-- Longer groups than a unit needs are accepted. -/
def units : Bytes → Option (List UInt16)
  | [] => some []
  | a :: as =>
    if a < 0x80 then (units as).map (a.toUInt16 :: ·)
    else if a < 0xC0 then none
    else if a < 0xE0 then
      match as with
      | b :: bs => if isContinuation b then (units bs).map (pair a b :: ·) else none
      | [] => none
    else if a < 0xF0 then
      match as with
      | b :: c :: cs =>
        if isContinuation b && isContinuation c then (units cs).map (triple a b c :: ·) else none
      | _ => none
    else none

def encodeUnit (u : UInt16) : Bytes :=
  let n := u.toNat
  if n = 0 then [0xC0, 0x80]
  else if n < 0x80 then [UInt8.ofNat n]
  else if n < 0x800 then [UInt8.ofNat (0xC0 + n / 64), UInt8.ofNat (0x80 + n % 64)]
  else [UInt8.ofNat (0xE0 + n / 4096), UInt8.ofNat (0x80 + n / 64 % 64),
    UInt8.ofNat (0x80 + n % 64)]

def encodeUnits (us : List UInt16) : Bytes := us.flatMap encodeUnit

def decodeUnits (bs : Bytes) : Option String :=
  ((units bs).bind Utf16.decode).map String.ofList

def decode (bs : Bytes) : Option String :=
  match Bytes.utf8? bs with
  | some s => some s
  | none => decodeUnits bs

end JarIndex.ModifiedUtf8
