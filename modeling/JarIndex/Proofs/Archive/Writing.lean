import JarIndex.Archive.Content
import JarIndex.Proofs.Deflate.Stored

/-!
# Archives as they are written

Each entry is written as a local header with its name and its data, then all of
them are listed in the directory, and an end record without comment closes the
archive. Any bytes may stand in front, which no offset counts.
-/

set_option autoImplicit false

namespace JarIndex.Archive

open Deflate (StoredStream)

inductive Packing where
  | plain (data : Bytes)
  | blocks (stream : StoredStream)

namespace Packing

def data : Packing → Bytes
  | .plain data => data
  | .blocks stream => stream.content

def stored : Packing → Bytes
  | .plain data => data
  | .blocks stream => stream.written

def method : Packing → Nat
  | .plain _ => 0
  | .blocks _ => 8

end Packing

/-- What is written of an entry and passed over when it is read; each number is cut to its
field. -/
structure Stamp where
  madeBy : Nat
  needed : Nat
  time : Nat
  date : Nat
  internal : Nat
  external : Nat

structure Packed where
  name : String
  packing : Packing
  flags : Nat
  stamp : Stamp
  name_le : (utf8Bytes name).length ≤ max16
  flags_le : flags ≤ max16
  not_encrypted : flags.testBit 0 = false
  utf8 : flags.testBit 11 = true

namespace Packed

def data (p : Packed) : Bytes := p.packing.data

def nameBytes (p : Packed) : Bytes := utf8Bytes p.name

def checksum (p : Packed) : Nat := Crc32.checksum p.data

/-- What of a local header is passed over. -/
def repeated (p : Packed) : Bytes :=
  [Bytes.ofNatLE 2 p.stamp.needed, Bytes.ofNatLE 2 p.flags, Bytes.ofNatLE 2 p.packing.method,
    Bytes.ofNatLE 2 p.stamp.time, Bytes.ofNatLE 2 p.stamp.date, Bytes.ofNatLE 4 p.checksum,
    Bytes.ofNatLE 4 p.packing.stored.length, Bytes.ofNatLE 4 p.data.length].flatten

def localHeader (p : Packed) : Bytes :=
  [Member.localMark, p.repeated, Bytes.ofNatLE 2 p.nameBytes.length, Bytes.ofNatLE 2 0].flatten

def localRecord (p : Packed) : Bytes := p.localHeader ++ p.nameBytes ++ p.packing.stored

def directoryRecord (p : Packed) (offset : Nat) : Bytes :=
  [Member.mark, Bytes.ofNatLE 2 p.stamp.madeBy ++ Bytes.ofNatLE 2 p.stamp.needed,
    Bytes.ofNatLE 2 p.flags, Bytes.ofNatLE 2 p.packing.method,
    Bytes.ofNatLE 2 p.stamp.time ++ Bytes.ofNatLE 2 p.stamp.date, Bytes.ofNatLE 4 p.checksum,
    Bytes.ofNatLE 4 p.packing.stored.length, Bytes.ofNatLE 4 p.data.length,
    Bytes.ofNatLE 2 p.nameBytes.length, Bytes.ofNatLE 2 0, Bytes.ofNatLE 2 0,
    Bytes.ofNatLE 2 0 ++ Bytes.ofNatLE 2 p.stamp.internal ++ Bytes.ofNatLE 4 p.stamp.external,
    Bytes.ofNatLE 4 offset, p.nameBytes, [], []].flatten

def member (p : Packed) (position : Nat) : Member :=
  ⟨p.name, false, false, p.packing.method, p.checksum, p.data.length, p.packing.stored.length,
    position⟩

end Packed

def placed : Nat → List Packed → List (Packed × Nat)
  | _, [] => []
  | offset, p :: ps => (p, offset) :: placed (offset + p.localRecord.length) ps

def membersOf (front : Bytes) (ps : List Packed) : List Member :=
  (placed 0 ps).map fun e => e.1.member (e.2 + front.length)

def localRecords (ps : List Packed) : Bytes := ps.flatMap Packed.localRecord

def directoryRecords (offset : Nat) (ps : List Packed) : Bytes :=
  (placed offset ps).flatMap fun e => e.1.directoryRecord e.2

def endRecord (count size offset : Nat) : Bytes :=
  [EndRecord.mark, Bytes.ofNatLE 2 0, Bytes.ofNatLE 2 0, Bytes.ofNatLE 2 count,
    Bytes.ofNatLE 2 count, Bytes.ofNatLE 4 size, Bytes.ofNatLE 4 offset, Bytes.ofNatLE 2 0,
    []].flatten

def written (front : Bytes) (ps : List Packed) : Bytes :=
  front ++ localRecords ps ++ directoryRecords 0 ps ++
    endRecord ps.length (directoryRecords 0 ps).length (localRecords ps).length

/-- That the entries fit an archive without wide records. The sizes of the entries and the
offsets of their headers fit if the offset of the directory does. -/
structure Fits (ps : List Packed) : Prop where
  count : ps.length < max16
  directory_offset : (localRecords ps).length < max32
  directory_size : (directoryRecords 0 ps).length < max32

instance (ps : List Packed) : Decidable (Fits ps) :=
  decidable_of_iff (ps.length < max16 ∧ (localRecords ps).length < max32 ∧
      (directoryRecords 0 ps).length < max32)
    ⟨fun h => ⟨h.1, h.2.1, h.2.2⟩, fun h => ⟨h.count, h.directory_offset, h.directory_size⟩⟩

/-- That a written archive is one that can be read: its length is that of a file, and what
stands in the place of a locator is none. -/
structure Sound (front : Bytes) (ps : List Packed) : Prop extends Fits ps where
  length_lt : (written front ps).length < UInt64.size
  no_locator : Locator.size + EndRecord.size ≤ (written front ps).length →
    ((written front ps).drop ((written front ps).length - (Locator.size + EndRecord.size))).take 4
      ≠ Locator.mark

instance (front : Bytes) (ps : List Packed) : Decidable (Sound front ps) :=
  decidable_of_iff (Fits ps ∧ (written front ps).length < UInt64.size ∧
      (Locator.size + EndRecord.size ≤ (written front ps).length →
        ((written front ps).drop ((written front ps).length -
          (Locator.size + EndRecord.size))).take 4 ≠ Locator.mark))
    ⟨fun h => ⟨h.1, h.2.1, h.2.2⟩, fun h => ⟨h.toFits, h.length_lt, h.no_locator⟩⟩

end JarIndex.Archive
