import JarIndex.Archive.Fields

/-!
# Where the directory of an archive is

The end record is the last one within reach of the end of the file. A wide end
record, where a locator in front of it says that there is one, takes precedence.
Bytes in front of the archive shift every offset in it; by how much follows from
where the records are found.
-/

set_option autoImplicit false

namespace JarIndex.Archive

def max16 : Nat := 0xFFFF

def max32 : Nat := 0xFFFFFFFF

structure EndRecord where
  disk : Nat
  directoryDisk : Nat
  membersHere : Nat
  members : Nat
  directorySize : Nat
  directoryOffset : Nat
  commentLength : Nat
  deriving DecidableEq, Repr

structure WideEndRecord where
  disk : Nat
  directoryDisk : Nat
  members : Nat
  directoryOffset : Nat
  deriving DecidableEq, Repr

structure Locator where
  directoryDisk : Nat
  recordOffset : Nat
  deriving DecidableEq, Repr

/-- Where the directory starts, how many members it lists, and by how much the offsets
in it fall short. -/
structure Layout where
  shift : Nat
  start : Nat
  members : Nat
  deriving DecidableEq, Repr

def positionsFrom (i : Nat) (mark : Bytes) : Bytes → List Nat
  | [] => []
  | b :: bs =>
    if mark.isPrefixOf (b :: bs) then i :: positionsFrom (i + 1) mark bs
    else positionsFrom (i + 1) mark bs

def positions (mark : Bytes) (bs : Bytes) : List Nat := positionsFrom 0 mark bs

namespace EndRecord

def mark : Bytes := [0x50, 0x4B, 5, 6]

def size : Nat := 22

def fields : Fields EndRecord := do
  Fields.skip 4
  let disk ← Fields.u16
  let directoryDisk ← Fields.u16
  let membersHere ← Fields.u16
  let members ← Fields.u16
  let directorySize ← Fields.u32
  let directoryOffset ← Fields.u32
  let commentLength ← Fields.u16
  Fields.skip commentLength
  return ⟨disk, directoryDisk, membersHere, members, directorySize, directoryOffset, commentLength⟩

/-- Whether some field is at its greatest value, so that it may not say the truth. -/
def isTooSmall (r : EndRecord) : Bool :=
  r.disk = max16 || r.directoryDisk = max16 || r.membersHere = max16 || r.members = max16 ||
    r.directorySize = max32 || r.directoryOffset = max32

/-- The last place for an end record; the reach is the longest comment. -/
def position? (bs : Bytes) : Option Nat :=
  let last := bs.length - size
  ((positions mark bs).filter fun i => i ≤ last && last ≤ i + max16).getLast?

end EndRecord

namespace Locator

def mark : Bytes := [0x50, 0x4B, 6, 7]

def size : Nat := 20

def fields : Fields (Option Locator) := do
  let found ← Fields.bytes 4
  if found ≠ mark then return none
  let directoryDisk ← Fields.u32
  let recordOffset ← Fields.u64
  Fields.skip 4
  return some ⟨directoryDisk, recordOffset⟩

/-- The locator directly in front of an end record that nothing but its comment follows. -/
def find (r : EndRecord) (bs : Bytes) : Except Fault (Option Locator) :=
  let back := size + EndRecord.size + r.commentLength
  if bs.length < back then .ok none else fields.readAt (bs.length - back) bs

end Locator

namespace WideEndRecord

def mark : Bytes := [0x50, 0x4B, 6, 6]

/-- The size of a record and a locator. -/
def room : Nat := 60

def fields : Fields WideEndRecord := do
  Fields.skip 4
  Fields.skip 8
  Fields.skip 4
  let disk ← Fields.u32
  let directoryDisk ← Fields.u32
  Fields.skip 8
  let members ← Fields.u64
  Fields.skip 8
  let directoryOffset ← Fields.u64
  return ⟨disk, directoryDisk, members, directoryOffset⟩

def position? (first last : Nat) (bs : Bytes) : Option Nat :=
  (positions mark bs).find? fun i => first ≤ i && i ≤ last

end WideEndRecord

namespace Layout

def plain (r : EndRecord) (position : Nat) : Except Fault Layout :=
  if r.directorySize + r.directoryOffset ≤ position then
    let shift := position - r.directorySize - r.directoryOffset
    .ok ⟨shift, r.directoryOffset + shift, r.membersHere⟩
  else .error .directoryBounds

def wide (bs : Bytes) (r : EndRecord) (position : Nat) (l : Locator) : Except Fault Layout := do
  if !r.isTooSmall && r.disk ≠ l.directoryDisk then
    throw .multiDisk
  if position < WideEndRecord.room then
    throw .noRoomForWideEnd
  match WideEndRecord.position? l.recordOffset (position - WideEndRecord.room) bs with
  | none => throw .noWideEnd
  | some found =>
    let w ← WideEndRecord.fields.readAt found bs
    let shift := found - l.recordOffset
    if w.disk ≠ w.directoryDisk then
      throw .multiDisk
    if UInt64.size ≤ w.directoryOffset + shift then
      throw .directoryBounds
    return ⟨shift, w.directoryOffset + shift, w.members⟩

def find (bs : Bytes) : Except Fault Layout := do
  if bs.length < EndRecord.size then
    throw .tooShort
  match EndRecord.position? bs with
  | none => throw .noEndRecord
  | some position =>
    let r ← EndRecord.fields.readAt position bs
    if !r.isTooSmall && r.disk ≠ r.directoryDisk then
      throw .multiDisk
    match ← Locator.find r bs with
    | none => plain r position
    | some l => wide bs r position l

end Layout

end JarIndex.Archive
