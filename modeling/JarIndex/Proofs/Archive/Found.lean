import JarIndex.Archive.EndRecord
import JarIndex.Proofs.Archive.Reading
import JarIndex.Proofs.Archive.Writing

/-!
# Finding the directory of a written archive

The end record is found where it stands, whatever the bytes in front of it look
like, since no later place can hold one. It tells where the directory starts and
by how much the bytes in front shift every offset.
-/

set_option autoImplicit false

namespace JarIndex.Archive

theorem mem_positionsFrom {mark bs : Bytes} {i j : Nat} : j ∈ positionsFrom i mark bs ↔
    ∃ k < bs.length, j = i + k ∧ mark <+: bs.drop k := by
  induction bs generalizing i with
  | nil => simp [positionsFrom]
  | cons b bs ih =>
    have first_or_later : (∃ k < (b :: bs).length, j = i + k ∧ mark <+: (b :: bs).drop k) ↔
        (j = i ∧ mark <+: b :: bs) ∨ ∃ k < bs.length, j = i + 1 + k ∧ mark <+: bs.drop k := by
      rw [List.length_cons, Nat.exists_lt_succ_left]
      simp [Nat.add_assoc, Nat.add_comm 1]
    rw [first_or_later, ← ih, positionsFrom]
    split
    · rename_i hm
      rw [List.mem_cons, ← List.isPrefixOf_iff_prefix]
      simp [hm]
    · rename_i hm
      rw [← List.isPrefixOf_iff_prefix]
      simp [hm]

theorem positionsFrom_ordered (i : Nat) (mark bs : Bytes) :
    (positionsFrom i mark bs).Pairwise (· < ·) := by
  induction bs generalizing i with
  | nil => exact .nil
  | cons b bs ih =>
    rw [positionsFrom]
    split
    · apply List.Pairwise.cons _ (ih (i + 1))
      intro j hj
      obtain ⟨k, _, rfl, _⟩ := mem_positionsFrom.mp hj
      omega
    · exact ih (i + 1)

theorem getLast?_ordered {l : List Nat} (h : l.Pairwise (· < ·)) {n : Nat} (hn : n ∈ l)
    (hle : ∀ m ∈ l, m ≤ n) : l.getLast? = some n := by
  obtain ⟨front, back, rfl⟩ := List.append_of_mem hn
  cases back with
  | nil => simp
  | cons m back =>
    have hm := hle m (by simp)
    have hp := (List.pairwise_append.mp h).2.1
    have hlt := List.rel_of_pairwise_cons hp (List.mem_cons_self)
    omega

theorem position?_append {body record : Bytes} (hl : record.length = EndRecord.size)
    (hm : EndRecord.mark <+: record) :
    EndRecord.position? (body ++ record) = some body.length := by
  have hlast : (body ++ record).length - EndRecord.size = body.length := by
    rw [List.length_append]
    omega
  unfold EndRecord.position? positions
  dsimp only
  rw [hlast]
  apply getLast?_ordered ((positionsFrom_ordered 0 _ _).filter _)
  · rw [List.mem_filter, mem_positionsFrom]
    refine ⟨⟨body.length, ?_, by omega, ?_⟩, ?_⟩
    · rw [List.length_append, hl]
      exact Nat.lt_add_of_pos_right (by decide)
    · rw [List.drop_left]
      exact hm
    · simp
  · intro m hmem
    have h := (List.mem_filter.mp hmem).2
    simp only [Bool.and_eq_true, decide_eq_true_eq] at h
    exact h.1

theorem reads_endRecord {count size offset : Nat} (hc : count < 256 ^ 2) (hs : size < 256 ^ 4)
    (ho : offset < 256 ^ 4) : Reads EndRecord.fields (endRecord count size offset)
      ⟨0, 0, count, count, size, offset, 0⟩ := by
  unfold EndRecord.fields endRecord
  refine Reads.cons (reads_skip rfl) ?_
  refine Reads.cons (reads_number (by decide)) ?_
  refine Reads.cons (reads_number (by decide)) ?_
  refine Reads.cons (reads_number hc) ?_
  refine Reads.cons (reads_number hc) ?_
  refine Reads.cons (reads_number hs) ?_
  refine Reads.cons (reads_number ho) ?_
  refine Reads.cons (reads_number (by decide)) ?_
  exact Reads.cons (reads_skip rfl) (reads_pure _)

theorem length_endRecord (count size offset : Nat) :
    (endRecord count size offset).length = EndRecord.size := by
  simp [endRecord, EndRecord.mark, EndRecord.size]

theorem find_no_locator {r : EndRecord} {bs : Bytes} (hc : r.commentLength = 0)
    (h : Locator.size + EndRecord.size ≤ bs.length →
      (bs.drop (bs.length - (Locator.size + EndRecord.size))).take 4 ≠ Locator.mark) :
    Locator.find r bs = .ok none := by
  unfold Locator.find
  rw [hc, Nat.add_zero]
  dsimp only
  split
  · rfl
  · rename_i hb
    have hb := Nat.le_of_not_lt hb
    have hl : (bs.drop (bs.length - (Locator.size + EndRecord.size))).length =
        Locator.size + EndRecord.size := by
      rw [List.length_drop]
      omega
    have ht := h hb
    unfold Fields.readAt
    generalize bs.drop (bs.length - (Locator.size + EndRecord.size)) = tail at ht hl
    have h4 : (tail.take 4).length = 4 := by
      rw [List.length_take, hl]
      rfl
    unfold Locator.fields
    rw [← List.take_append_drop 4 tail, (reads_bytes_of_length h4).bind_append, if_pos ht]
    rfl

theorem length_written (front : Bytes) (ps : List Packed) : (written front ps).length =
    (front ++ localRecords ps ++ directoryRecords 0 ps).length + EndRecord.size := by
  unfold written
  rw [List.length_append, length_endRecord]

theorem position?_written (front : Bytes) (ps : List Packed) :
    EndRecord.position? (written front ps) =
      some (front ++ localRecords ps ++ directoryRecords 0 ps).length :=
  position?_append (length_endRecord _ _ _) (List.prefix_append _ _)

theorem readAt_endRecord {front : Bytes} {ps : List Packed} (h : Fits ps) :
    EndRecord.fields.readAt (front ++ localRecords ps ++ directoryRecords 0 ps).length
      (written front ps) = .ok ⟨0, 0, ps.length, ps.length, (directoryRecords 0 ps).length,
        (localRecords ps).length, 0⟩ := by
  have hc : ps.length < 256 ^ 2 := Nat.lt_trans h.count (by decide)
  have hs : (directoryRecords 0 ps).length < 256 ^ 4 := Nat.lt_trans h.directory_size (by decide)
  have ho : (localRecords ps).length < 256 ^ 4 := Nat.lt_trans h.directory_offset (by decide)
  have hr := (reads_endRecord hc hs ho).readAt
    (front ++ localRecords ps ++ directoryRecords 0 ps) []
  rw [List.append_nil] at hr
  exact hr

theorem find_written {front : Bytes} {ps : List Packed} (h : Sound front ps) :
    Layout.find (written front ps) =
      .ok ⟨front.length, (front ++ localRecords ps).length, ps.length⟩ := by
  have hlong : ¬ (written front ps).length < EndRecord.size := by
    rw [length_written]
    omega
  have hplain : Layout.plain ⟨0, 0, ps.length, ps.length, (directoryRecords 0 ps).length,
      (localRecords ps).length, 0⟩ (front ++ localRecords ps ++ directoryRecords 0 ps).length =
        .ok ⟨front.length, (front ++ localRecords ps).length, ps.length⟩ := by
    unfold Layout.plain
    simp only [List.length_append]
    rw [if_pos (by omega)]
    congr 2 <;> omega
  unfold Layout.find
  dsimp only
  rw [if_neg hlong, position?_written]
  dsimp only
  rw [readAt_endRecord h.toFits]
  simp only [bind, Except.bind]
  rw [if_neg (by simp), find_no_locator rfl h.no_locator]
  exact hplain

end JarIndex.Archive
