import JarIndex.Archive.Directory
import JarIndex.Crc32
import JarIndex.Deflate.Inflate

/-!
# The content of a member

The local header only tells where the data starts; sizes, method and checksum
are those of the directory. Data that runs past the end of the file is cut
there.
-/

set_option autoImplicit false

namespace JarIndex.Archive

/-- Why a member has no content. A member that is AES encrypted behind a plain method is
one that reading cannot go on after. -/
inductive Unreadable where
  | fault (f : Fault)
  | abort
  deriving DecidableEq, Repr

namespace Member

def localMark : Bytes := [0x50, 0x4B, 3, 4]

def localHeaderSize : Nat := 30

/-- The size of the local header with its name and extra fields. -/
def localFields : Fields Nat := do
  let found ← Fields.bytes 4
  if found ≠ localMark then
    Fields.fail .localHeader
  Fields.skip 22
  let nameLength ← Fields.u16
  let extraLength ← Fields.u16
  return localHeaderSize + nameLength + extraLength

def dataOffset (m : Member) (bs : Bytes) : Except Fault Nat :=
  (localFields.readAt m.headerOffset bs).map (m.headerOffset + ·)

def decompress (method : Nat) (data : Bytes) : Except Unreadable Bytes :=
  match method with
  | 0 => .ok data
  | 8 => (Deflate.inflate data).mapError fun f => .fault (.deflate f)
  | _ => .error (.fault .method)

def content (m : Member) (bs : Bytes) : Except Unreadable Bytes := do
  if m.encrypted then
    throw (.fault .encrypted)
  let start ← (m.dataOffset bs).mapError .fault
  if m.method ≠ 0 ∧ m.method ≠ 8 then
    throw (.fault .method)
  if m.aes then
    throw .abort
  let content ← decompress m.method ((bs.drop start).take m.storedSize)
  if Crc32.checksum content ≠ m.checksum then
    throw (.fault .checksum)
  return content

end Member

end JarIndex.Archive
