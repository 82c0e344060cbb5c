import JarIndex.Archive.Content

/-!
# When a member has a content

A member has a content exactly when it is not encrypted, its data decompresses to
the end and the result has the checksum of the directory. Reading it cannot go on
exactly when an AES field stands behind a plain method that is known.
-/

set_option autoImplicit false

namespace JarIndex.Archive

/-- That the stored data of a member decompresses, as a whole and with the checksum that the
directory gives, to `data`. -/
structure Readable (bs : Bytes) (m : Member) (data : Bytes) : Prop where
  not_encrypted : m.encrypted = false
  not_aes : m.aes = false
  decompressed : ∃ start, m.dataOffset bs = .ok start ∧
    Member.decompress m.method ((bs.drop start).take m.storedSize) = .ok data
  verified : Crc32.checksum data = m.checksum

/-- That reading a member cannot go on: it is not marked as encrypted and its data would be
decompressed, but an AES field says that it is encrypted after all. -/
structure Fatal (bs : Bytes) (m : Member) : Prop where
  not_encrypted : m.encrypted = false
  located : ∃ start, m.dataOffset bs = .ok start
  known_method : m.method = 0 ∨ m.method = 8
  aes : m.aes = true

namespace Member

theorem content_eq (m : Member) (bs : Bytes) : m.content bs =
    if m.encrypted then .error (.fault .encrypted)
    else match m.dataOffset bs with
      | .error f => .error (.fault f)
      | .ok start =>
        if m.method ≠ 0 ∧ m.method ≠ 8 then .error (.fault .method)
        else if m.aes then .error .abort
        else match decompress m.method ((bs.drop start).take m.storedSize) with
          | .error u => .error u
          | .ok data =>
            if Crc32.checksum data ≠ m.checksum then .error (.fault .checksum) else .ok data := by
  unfold content
  by_cases he : m.encrypted
  · rw [if_pos he, if_pos he]
    rfl
  rw [if_neg he, if_neg he]
  cases m.dataOffset bs with
  | error f => rfl
  | ok start =>
    show (if m.method ≠ 0 ∧ m.method ≠ 8 then _ else _) = ite _ _ _
    by_cases hm : m.method ≠ 0 ∧ m.method ≠ 8
    · rw [if_pos hm, if_pos hm]
      rfl
    rw [if_neg hm, if_neg hm]
    by_cases ha : m.aes
    · rw [if_pos ha, if_pos ha]
      rfl
    rw [if_neg ha, if_neg ha]
    cases decompress m.method ((bs.drop start).take m.storedSize) with
    | error u => rfl
    | ok data =>
      show (if Crc32.checksum data ≠ m.checksum then _ else _) = ite _ _ _
      by_cases hc : Crc32.checksum data ≠ m.checksum
      · rw [if_pos hc, if_pos hc]
        rfl
      · rw [if_neg hc, if_neg hc]
        rfl

theorem method_of_decompress {method : Nat} {stored data : Bytes}
    (h : decompress method stored = .ok data) : ¬ (method ≠ 0 ∧ method ≠ 8) := by
  unfold decompress at h
  split at h
  · simp
  · simp
  · cases h

theorem content_eq_ok {m : Member} {bs data : Bytes} :
    m.content bs = .ok data ↔ Readable bs m data := by
  constructor
  · intro h
    rw [content_eq] at h
    split at h
    · cases h
    rename_i he
    cases hs : m.dataOffset bs with
    | error f =>
      rw [hs] at h
      cases h
    | ok start =>
      simp only [hs] at h
      split at h
      · cases h
      split at h
      · cases h
      rename_i ha
      cases hd : decompress m.method ((bs.drop start).take m.storedSize) with
      | error u =>
        rw [hd] at h
        cases h
      | ok data' =>
        simp only [hd] at h
        split at h
        · cases h
        rename_i hc
        cases h
        exact ⟨by simpa using he, by simpa using ha, ⟨start, hs, hd⟩, Decidable.not_not.mp hc⟩
  · intro hw
    obtain ⟨he, ha, ⟨start, hs, hd⟩, hc⟩ := hw
    rw [content_eq, hs]
    simp only [hd]
    rw [if_neg (by simp [he]), if_neg (method_of_decompress hd), if_neg (by simp [ha]),
      if_neg (Decidable.not_not.mpr hc)]

theorem decompress_ne_abort (method : Nat) (stored : Bytes) :
    decompress method stored ≠ .error .abort := by
  unfold decompress
  split
  · simp
  · intro h
    cases hi : Deflate.inflate stored <;> rw [hi] at h <;> cases h
  · simp

theorem content_eq_abort {m : Member} {bs : Bytes} :
    m.content bs = .error .abort ↔ Fatal bs m := by
  rw [content_eq]
  constructor
  · intro h
    split at h
    · cases h
    rename_i he
    cases hs : m.dataOffset bs with
    | error f =>
      rw [hs] at h
      cases h
    | ok start =>
      simp only [hs] at h
      split at h
      · cases h
      rename_i hm
      split at h
      · rename_i ha
        exact ⟨by simpa using he, ⟨start, hs⟩, by omega, ha⟩
      · cases hd : decompress m.method ((bs.drop start).take m.storedSize) with
        | error u =>
          simp only [hd] at h
          rw [h] at hd
          exact absurd hd (decompress_ne_abort _ _)
        | ok data =>
          simp only [hd] at h
          split at h <;> cases h
  · intro hf
    obtain ⟨he, ⟨start, hs⟩, hm, ha⟩ := hf
    rw [if_neg (by simp [he]), hs]
    dsimp only
    rw [if_neg (by omega), if_pos ha]

end Member

end JarIndex.Archive
