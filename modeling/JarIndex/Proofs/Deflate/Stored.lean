import JarIndex.Deflate.Inflate
import JarIndex.Proofs.Bytes

/-!
# Streams of blocks that are not compressed

Such a block is its first byte, its length with the complement of it, and its
content. Inflating a stream of them gives their contents one after the other.
-/

set_option autoImplicit false

namespace JarIndex.Deflate

/-- A block that is not compressed; any bits may fill up its first byte. -/
structure StoredBlock where
  padding : Nat
  content : Bytes
  padding_lt : padding < 32
  content_le : content.length ≤ 0xFFFF

namespace StoredBlock

def first (final : Bool) (b : StoredBlock) : UInt8 := UInt8.ofNat (final.toNat + 8 * b.padding)

def lengths (b : StoredBlock) : Bytes :=
  Bytes.ofNatLE 2 b.content.length ++ Bytes.ofNatLE 2 (0xFFFF - b.content.length)

def written (final : Bool) (b : StoredBlock) : Bytes :=
  b.first final :: (b.lengths ++ b.content)

end StoredBlock

structure StoredStream where
  inner : List StoredBlock
  last : StoredBlock

namespace StoredStream

def content (s : StoredStream) : Bytes := s.inner.flatMap StoredBlock.content ++ s.last.content

def written (s : StoredStream) : Bytes :=
  s.inner.flatMap (StoredBlock.written false) ++ s.last.written true

theorem length_content_le (s : StoredStream) : s.content.length ≤ s.written.length := by
  have block : ∀ (final : Bool) (b : StoredBlock), b.content.length ≤ (b.written final).length := by
    intro final b
    rw [StoredBlock.written, List.length_cons, List.length_append]
    omega
  have inner : ∀ bs : List StoredBlock, (bs.flatMap StoredBlock.content).length ≤
      (bs.flatMap (StoredBlock.written false)).length := by
    intro bs
    induction bs with
    | nil => exact Nat.le_refl _
    | cons b bs ih =>
      rw [List.flatMap_cons, List.flatMap_cons, List.length_append, List.length_append]
      exact Nat.add_le_add (block false b) ih
  rw [content, written, List.length_append, List.length_append]
  exact Nat.add_le_add (inner s.inner) (block true s.last)

end StoredStream

theorem number_three (x : UInt8) (rest : Bytes) : BitStream.number 3 ⟨[], x :: rest⟩ =
    .ok (x.toNat % 8, ⟨(BitStream.bitsOf x).drop 3, rest⟩) := by
  have bits : (x.toNat.testBit 0).toNat + 2 * ((x.toNat.testBit 1).toNat +
      2 * ((x.toNat.testBit 2).toNat + 2 * 0)) = x.toNat % 8 := by
    simp only [Nat.toNat_testBit]
    omega
  rw [← bits]
  rfl

namespace StoredBlock

variable (final : Bool) (b : StoredBlock) (rest : Bytes)

theorem number_first : BitStream.number 3 ⟨[], b.first final :: rest⟩ =
    .ok (final.toNat, ⟨(BitStream.bitsOf (b.first final)).drop 3, rest⟩) := by
  have hp := b.padding_lt
  have hf := Bool.toNat_le final
  have hv : (b.first final).toNat % 8 = final.toNat := by
    unfold first
    rw [UInt8.toNat_ofNat']
    omega
  rw [number_three, hv]

theorem stored_eq (held : List Bool) (out : Array UInt8) :
    stored ⟨held, b.lengths ++ b.content ++ rest⟩ out =
      .ok (out ++ b.content.toArray, ⟨[], rest⟩) := by
  have hl := b.content_le
  have front : (Bytes.ofNatLE 2 b.content.length).length = 2 := Bytes.length_ofNatLE _ _
  have all : b.lengths.length = 4 := by simp [lengths]
  have length : Bytes.littleEndian (b.lengths.take 2) = b.content.length := by
    unfold lengths
    rw [List.take_left' front, Bytes.littleEndian_ofNatLE]
    omega
  have complement : Bytes.littleEndian (b.lengths.drop 2) = 0xFFFF - b.content.length := by
    unfold lengths
    rw [List.drop_left' front, Bytes.littleEndian_ofNatLE]
    omega
  have h4 : BitStream.bytes 4 ⟨held, b.lengths ++ b.content ++ rest⟩ =
      .ok (b.lengths, ⟨[], b.content ++ rest⟩) := by
    unfold BitStream.bytes
    rw [List.append_assoc, ← all, Bytes.split?_append]
  have hc : BitStream.bytes b.content.length ⟨[], b.content ++ rest⟩ =
      .ok (b.content, ⟨[], rest⟩) := by
    unfold BitStream.bytes
    rw [Bytes.split?_append]
  unfold stored
  simp only [h4, length, complement]
  rw [if_neg (by omega)]
  simp only [hc, List.foldl_push_eq_append']

end StoredBlock

theorem blocks_written (final : Bool) (b : StoredBlock) (rest : Bytes) (out : Array UInt8) :
    blocks ⟨[], b.written final ++ rest⟩ out =
      if final then .ok (out ++ b.content.toArray)
      else blocks ⟨[], rest⟩ (out ++ b.content.toArray) := by
  have hn := b.number_first final (b.lengths ++ b.content ++ rest)
  have hb := b.stored_eq rest ((BitStream.bitsOf (b.first final)).drop 3) out
  have hk : block (final.toNat / 2) ⟨(BitStream.bitsOf (b.first final)).drop 3,
      b.lengths ++ b.content ++ rest⟩ out = .ok (out ++ b.content.toArray, ⟨[], rest⟩) := by
    cases final <;> exact hb
  show blocks ⟨[], b.first final :: (b.lengths ++ b.content ++ rest)⟩ out = _
  rw [blocks]
  split
  · rename_i hx
    rw [hn] at hx
    cases hx
  · rename_i hx
    rw [hn] at hx
    cases hx
    split
    · rename_i hy
      rw [hk] at hy
      cases hy
    · rename_i hy
      rw [hk] at hy
      cases hy
      cases final <;> rfl

theorem blocks_stream (inner : List StoredBlock) (last : StoredBlock) (out : Array UInt8) :
    blocks ⟨[], inner.flatMap (StoredBlock.written false) ++ last.written true⟩ out =
      .ok (out ++ (inner.flatMap StoredBlock.content ++ last.content).toArray) := by
  induction inner generalizing out with
  | nil =>
    have h := blocks_written true last [] out
    rw [List.append_nil] at h
    simpa using h
  | cons b inner ih =>
    rw [List.flatMap_cons, List.append_assoc, blocks_written, if_neg (by simp), ih]
    simp

theorem inflate_written (s : StoredStream) : inflate s.written = .ok s.content := by
  unfold inflate StoredStream.written
  rw [BitStream.ofBytes, blocks_stream]
  simp [Except.map, StoredStream.content]

end JarIndex.Deflate
