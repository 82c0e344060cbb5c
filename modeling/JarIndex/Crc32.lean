import JarIndex.Bytes

/-!
# The checksum of archive members

CRC-32 with the reflected polynomial `EDB88320`, all ones before the first byte
and complemented after the last.
-/

set_option autoImplicit false

namespace JarIndex.Crc32

def shift (c : UInt32) : UInt32 :=
  if c &&& 1 = 1 then (c >>> 1) ^^^ 0xEDB88320 else c >>> 1

def shifts : Nat → UInt32 → UInt32
  | 0, c => c
  | n + 1, c => shifts n (shift c)

def step (c : UInt32) (b : UInt8) : UInt32 := shifts 8 (c ^^^ b.toUInt32)

def checksum (bs : Bytes) : Nat := (bs.foldl step 0xFFFFFFFF ^^^ 0xFFFFFFFF).toNat

/-- The check value by which this checksum is told from others of the same width. -/
example : checksum (utf8Bytes "123456789") = 0xCBF43926 := by decide +kernel

end JarIndex.Crc32
