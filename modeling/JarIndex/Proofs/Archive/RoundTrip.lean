import JarIndex.Proofs.Archive.Content
import JarIndex.Proofs.Archive.Found
import JarIndex.Proofs.Text.Lossy

/-!
# Reading back a written archive

Each directory record is read as the member it was written for, and so is the
directory, record by record. A local record is read back wherever it stands, so
the content of each member is the data of its entry.
-/

set_option autoImplicit false

namespace JarIndex.Archive

theorem Packing.method_known (q : Packing) : q.method = 0 ∨ q.method = 8 := by
  cases q with
  | plain => exact .inl rfl
  | blocks => exact .inr rfl

theorem Packing.length_data_le (q : Packing) : q.data.length ≤ q.stored.length := by
  cases q with
  | plain data => exact Nat.le_refl _
  | blocks s => exact s.length_content_le

theorem decompress_stored (q : Packing) : Member.decompress q.method q.stored = .ok q.data := by
  cases q with
  | plain data => rfl
  | blocks s =>
    show (Deflate.inflate s.written).mapError _ = _
    rw [Deflate.inflate_written]
    rfl

namespace Member

theorem extraFields_nil (m : Member) : m.extraFields [] = .ok m := by
  rw [extraFields]
  intro a b c d rest h
  cases h

end Member

namespace Packed

variable (p : Packed)

theorem decodeName_eq : Member.decodeName p.flags p.nameBytes = p.name := by
  unfold Member.decodeName
  rw [if_pos p.utf8]
  exact LossyUtf8.decode_utf8Bytes p.name

theorem length_localHeader : p.localHeader.length = Member.localHeaderSize := by
  simp [localHeader, repeated, Member.localMark, Member.localHeaderSize]

theorem length_localRecord : p.localRecord.length =
    Member.localHeaderSize + p.nameBytes.length + p.packing.stored.length := by
  unfold localRecord
  rw [List.length_append, List.length_append, length_localHeader]

theorem nameLength_lt : p.nameBytes.length < 256 ^ 2 := Nat.lt_of_le_of_lt p.name_le (by decide)

theorem reads_member (offset shift : Nat) (h : offset + p.localRecord.length < max32)
    (hs : offset + shift < UInt64.size) :
    Reads (Member.fields shift) (p.directoryRecord offset) (p.member (offset + shift)) := by
  have hl := p.length_localRecord
  have hd : p.data.length ≤ p.packing.stored.length := p.packing.length_data_le
  have fits : ∀ n, n < max32 → n < 256 ^ 4 := fun n hn => Nat.lt_trans hn (by decide)
  have hflags : p.flags < 256 ^ 2 := Nat.lt_of_le_of_lt p.flags_le (by decide)
  have hmethod : p.packing.method < 256 ^ 2 ∧ p.packing.method ≠ Member.aesMethod := by
    obtain hm | hm := p.packing.method_known <;> simp [hm, Member.aesMethod]
  unfold Member.fields directoryRecord
  refine Reads.cons (reads_bytes_of_length rfl) ?_
  rw [if_neg (by simp)]
  refine Reads.cons (reads_skip rfl) ?_
  refine Reads.cons (reads_number hflags) ?_
  refine Reads.cons (reads_number hmethod.1) ?_
  refine Reads.cons (reads_skip rfl) ?_
  refine Reads.cons (reads_number (UInt32.toNat_lt _)) ?_
  refine Reads.cons (reads_number (fits _ (by omega))) ?_
  refine Reads.cons (reads_number (fits _ (by omega))) ?_
  refine Reads.cons (reads_number p.nameLength_lt) ?_
  refine Reads.cons (reads_number (by decide)) ?_
  refine Reads.cons (reads_number (by decide)) ?_
  refine Reads.cons (reads_skip rfl) ?_
  refine Reads.cons (reads_number (fits _ (by omega))) ?_
  refine Reads.cons (reads_bytes_of_length rfl) ?_
  refine Reads.cons (reads_bytes_of_length rfl) ?_
  refine Reads.cons (reads_skip rfl) ?_
  rw [decodeName_eq]
  dsimp only
  rw [Member.extraFields_nil]
  show Reads _ ([] ++ []) _
  refine (reads_ok _).bind ?_
  rw [if_neg (by simp [hmethod.2]), if_neg (Nat.not_le_of_lt hs), p.not_encrypted]
  exact reads_pure _

theorem reads_localHeader : Reads Member.localFields p.localHeader
    (Member.localHeaderSize + p.nameBytes.length) := by
  unfold Member.localFields localHeader
  refine Reads.cons (reads_bytes_of_length rfl) ?_
  rw [if_neg (by simp)]
  refine Reads.cons (reads_skip (by simp [repeated])) ?_
  refine Reads.cons (reads_number p.nameLength_lt) ?_
  refine Reads.cons (reads_number (by decide)) ?_
  exact reads_pure _

theorem readable_record (front rest : Bytes) :
    Readable (front ++ p.localRecord ++ rest) (p.member front.length) p.data := by
  constructor
  · rfl
  · rfl
  · have hread := p.reads_localHeader.readAt front (p.nameBytes ++ p.packing.stored ++ rest)
    have hsplit : front ++ p.localRecord ++ rest =
        front ++ p.localHeader ++ (p.nameBytes ++ p.packing.stored ++ rest) := by
      simp [localRecord]
    have hdata : ((front ++ p.localRecord ++ rest).drop
        (front.length + (Member.localHeaderSize + p.nameBytes.length))).take
          p.packing.stored.length = p.packing.stored := by
      have hl : front.length + (Member.localHeaderSize + p.nameBytes.length) =
          (front ++ p.localHeader ++ p.nameBytes).length := by
        rw [List.length_append, List.length_append, length_localHeader, Nat.add_assoc]
      have hs : front ++ p.localRecord ++ rest =
          (front ++ p.localHeader ++ p.nameBytes) ++ (p.packing.stored ++ rest) := by
        simp [localRecord]
      rw [hl, hs, List.drop_left, List.take_left]
    refine ⟨front.length + (Member.localHeaderSize + p.nameBytes.length), ?_, ?_⟩
    · unfold Member.dataOffset
      rw [hsplit]
      show (Member.localFields.readAt front.length _).map _ = _
      rw [hread]
      rfl
    · show Member.decompress p.packing.method (List.take p.packing.stored.length _) = _
      rw [hdata]
      exact decompress_stored p.packing
  · rfl

end Packed

section Directory

variable {front : Bytes} {ps : List Packed} {p : Packed}

theorem length_localRecords_cons (p : Packed) (ps : List Packed) :
    (localRecords (p :: ps)).length = p.localRecord.length + (localRecords ps).length := by
  unfold localRecords
  rw [List.flatMap_cons, List.length_append]

theorem reads_directory (offset shift : Nat) (ps : List Packed)
    (h : offset + (localRecords ps).length < max32)
    (hs : offset + (localRecords ps).length + shift < UInt64.size) :
    Reads (directory shift ps.length) (directoryRecords offset ps)
      ((placed offset ps).map fun e => e.1.member (e.2 + shift)) := by
  induction ps generalizing offset with
  | nil => exact reads_pure _
  | cons p ps ih =>
    rw [length_localRecords_cons] at h hs
    have first := p.reads_member offset shift (by omega) (by omega)
    have later := ih (offset + p.localRecord.length) (by omega) (by omega)
    have whole := later.bind (f := fun ms => pure (p.member (offset + shift) :: ms)) (reads_pure _)
    rw [List.append_nil] at whole
    exact first.bind whole

theorem members_written (h : Sound front ps) :
    members (written front ps) = .ok (membersOf front ps) := by
  have hl := h.length_lt
  have hd := h.directory_offset
  rw [length_written, List.length_append, List.length_append] at hl
  have hr := (reads_directory 0 front.length ps (by omega) (by omega)).readAt
    (front ++ localRecords ps)
    (endRecord ps.length (directoryRecords 0 ps).length (localRecords ps).length)
  unfold members
  rw [find_written h]
  exact hr

theorem mem_placed {offset position : Nat} (h : (p, position) ∈ placed offset ps) :
    ∃ before after, ps = before ++ p :: after ∧
      position = offset + (localRecords before).length := by
  induction ps generalizing offset with
  | nil => cases h
  | cons q ps ih =>
    obtain he | ht := List.mem_cons.mp h
    · cases he
      exact ⟨[], ps, rfl, rfl⟩
    · obtain ⟨before, after, rfl, rfl⟩ := ih ht
      refine ⟨q :: before, after, rfl, ?_⟩
      rw [length_localRecords_cons, Nat.add_assoc]

theorem written_split (front : Bytes) (before : List Packed) (p : Packed) (after : List Packed) :
    ∃ rest, written front (before ++ p :: after) =
      front ++ localRecords before ++ p.localRecord ++ rest := by
  refine ⟨localRecords after ++ directoryRecords 0 (before ++ p :: after) ++
    endRecord (before ++ p :: after).length (directoryRecords 0 (before ++ p :: after)).length
      (localRecords (before ++ p :: after)).length, ?_⟩
  simp [written, localRecords]

theorem readable_written {position : Nat} (front : Bytes) (h : (p, position) ∈ placed 0 ps) :
    Readable (written front ps) (p.member (position + front.length)) p.data := by
  obtain ⟨before, after, rfl, rfl⟩ := mem_placed h
  obtain ⟨rest, hw⟩ := written_split front before p after
  have hp : 0 + (localRecords before).length + front.length =
      (front ++ localRecords before).length := by
    rw [List.length_append]
    omega
  rw [hw, hp]
  exact p.readable_record _ rest

end Directory

end JarIndex.Archive
