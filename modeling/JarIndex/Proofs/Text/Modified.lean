import JarIndex.Proofs.Bytes
import JarIndex.Proofs.Text.Utf16
import JarIndex.Text.Modified

/-!
# Reading modified UTF-8

Units that are written in groups are read back unit by unit. Text in standard
UTF-8 reads as its units too, as far as it has no group of four bytes, so both ways
of reading agree where both apply.
-/

set_option autoImplicit false

namespace JarIndex.ModifiedUtf8

section Groups

variable {h m l : Nat} (bs : Bytes)

theorem isContinuation_ofNat (hl : l < 64) : isContinuation (UInt8.ofNat (0x80 + l)) = true := by
  simp [isContinuation, UInt8.le_iff_toNat_le, UInt8.lt_iff_toNat_lt]
  omega

theorem low6_ofNat (hl : l < 64) : low6 (UInt8.ofNat (0x80 + l)) = l := by
  unfold low6
  rw [UInt8.toNat_ofNat']
  omega

theorem units_one (hl : l < 0x80) :
    units (UInt8.ofNat l :: bs) = (units bs).map (UInt16.ofNat l :: ·) := by
  have ha : (UInt8.ofNat l).toNat = l := by
    rw [UInt8.toNat_ofNat']
    omega
  have hu : (UInt8.ofNat l).toUInt16 = UInt16.ofNat l := by
    apply UInt16.toNat.inj
    rw [UInt8.toNat_toUInt16, ha, UInt16.toNat_ofNat']
    omega
  rw [units.eq_def]
  simp only [UInt8.lt_iff_toNat_lt, UInt8.reduceToNat, ha, hl, if_true, hu]

theorem units_two (hh : h < 32) (hl : l < 64) :
    units (UInt8.ofNat (0xC0 + h) :: UInt8.ofNat (0x80 + l) :: bs) =
      (units bs).map (UInt16.ofNat (h * 64 + l) :: ·) := by
  have ha : (UInt8.ofNat (0xC0 + h)).toNat = 0xC0 + h := by
    rw [UInt8.toNat_ofNat']
    omega
  have h1 : ¬ 0xC0 + h < 0x80 := by omega
  have h2 : ¬ 0xC0 + h < 0xC0 := by omega
  have h3 : 0xC0 + h < 0xE0 := by omega
  have hm : (0xC0 + h) % 32 = h := by omega
  rw [units.eq_def]
  simp only [UInt8.lt_iff_toNat_lt, UInt8.reduceToNat, ha, h1, h2, h3, if_false, if_true,
    isContinuation_ofNat hl, pair, low6_ofNat hl, hm]

theorem units_three (hh : h < 16) (hm : m < 64) (hl : l < 64) :
    units (UInt8.ofNat (0xE0 + h) :: UInt8.ofNat (0x80 + m) :: UInt8.ofNat (0x80 + l) :: bs) =
      (units bs).map (UInt16.ofNat (h * 4096 + m * 64 + l) :: ·) := by
  have ha : (UInt8.ofNat (0xE0 + h)).toNat = 0xE0 + h := by
    rw [UInt8.toNat_ofNat']
    omega
  have h1 : ¬ 0xE0 + h < 0x80 := by omega
  have h2 : ¬ 0xE0 + h < 0xC0 := by omega
  have h3 : ¬ 0xE0 + h < 0xE0 := by omega
  have h4 : 0xE0 + h < 0xF0 := by omega
  have ht : (0xE0 + h) % 16 = h := by omega
  rw [units.eq_def]
  simp only [UInt8.lt_iff_toNat_lt, UInt8.reduceToNat, ha, h1, h2, h3, h4, if_false, if_true,
    isContinuation_ofNat hm, isContinuation_ofNat hl, Bool.and_self, triple, low6_ofNat hm,
    low6_ofNat hl, ht]

theorem units_four (hh : h < 8) : units (UInt8.ofNat (0xF0 + h) :: bs) = none := by
  have ha : (UInt8.ofNat (0xF0 + h)).toNat = 0xF0 + h := by
    rw [UInt8.toNat_ofNat']
    omega
  have h1 : ¬ 0xF0 + h < 0x80 := by omega
  have h2 : ¬ 0xF0 + h < 0xC0 := by omega
  have h3 : ¬ 0xF0 + h < 0xE0 := by omega
  have h4 : ¬ 0xF0 + h < 0xF0 := by omega
  rw [units.eq_def]
  simp only [UInt8.lt_iff_toNat_lt, UInt8.reduceToNat, ha, h1, h2, h3, h4, if_false]

end Groups

/-- A unit is read back in front of any bytes. -/
theorem units_encodeUnit (u : UInt16) (bs : Bytes) :
    units (encodeUnit u ++ bs) = (units bs).map (u :: ·) := by
  have hu := u.toNat_lt
  have back : UInt16.ofNat u.toNat = u := UInt16.ofNat_toNat
  unfold encodeUnit
  by_cases h0 : u.toNat = 0
  · simp only [h0, if_true]
    rw [h0] at back
    exact (units_two bs (h := 0) (l := 0) (by decide) (by decide)).trans (by rw [back])
  by_cases h1 : u.toNat < 0x80
  · simp only [h0, h1, if_false, if_true]
    exact (units_one bs h1).trans (by rw [back])
  by_cases h2 : u.toNat < 0x800
  · have he : u.toNat / 64 * 64 + u.toNat % 64 = u.toNat := by omega
    simp only [h0, h1, h2, if_false, if_true]
    exact (units_two bs (by omega) (by omega)).trans (by rw [he, back])
  · have he : u.toNat / 4096 * 4096 + u.toNat / 64 % 64 * 64 + u.toNat % 64 = u.toNat := by omega
    simp only [h0, h1, h2, if_false]
    exact (units_three bs (by omega) (by omega) (by omega)).trans (by rw [he, back])

theorem units_encodeUnits (us : List UInt16) : units (encodeUnits us) = some us := by
  induction us with
  | nil => rfl
  | cons u us ih =>
    have hu : encodeUnits (u :: us) = encodeUnit u ++ encodeUnits us := List.flatMap_cons
    rw [hu, units_encodeUnit, ih]
    rfl

theorem units_encodeChar (c : Char) (bs : Bytes) :
    units (String.utf8EncodeChar c ++ bs) =
      if c.toNat < 0x10000 then (units bs).map (UInt16.ofNat c.toNat :: ·) else none := by
  have hc : c.toNat = c.val.toNat := rfl
  have valid : c.val.toNat < 0xD800 ∨ 0xDFFF < c.val.toNat ∧ c.val.toNat < 0x110000 := c.valid
  rw [hc]
  fun_cases String.utf8EncodeChar c with
  | case1 v h =>
    rw [if_pos (by omega)]
    exact units_one bs (by omega)
  | case2 v h h' =>
    have he : v / 64 % 32 * 64 + v % 64 = v := by omega
    rw [if_pos (by omega), Nat.add_comm (v / 64 % 32), Nat.add_comm (v % 64)]
    exact (units_two bs (by omega) (by omega)).trans (by rw [he])
  | case3 v h h' h'' =>
    have he : v / 4096 % 16 * 4096 + v / 64 % 64 * 64 + v % 64 = v := by omega
    rw [if_pos (by omega), Nat.add_comm (v / 4096 % 16), Nat.add_comm (v / 64 % 64),
      Nat.add_comm (v % 64)]
    exact (units_three bs (by omega) (by omega) (by omega)).trans (by rw [he])
  | case4 v h h' h'' =>
    rw [if_neg (by omega), Nat.add_comm (v / 262144 % 8)]
    exact units_four _ (by omega)

theorem encode_of_units {cs : List Char} {us : List UInt16}
    (h : units (cs.flatMap String.utf8EncodeChar) = some us) : Utf16.encode cs = us := by
  induction cs generalizing us with
  | nil =>
    cases h
    rfl
  | cons c cs ih =>
    rw [List.flatMap_cons, units_encodeChar] at h
    split at h
    · rename_i hc
      obtain ⟨vs, hv, rfl⟩ := Option.map_eq_some_iff.mp h
      show Utf16.encodeChar c ++ Utf16.encode cs = _
      rw [ih hv, Utf16.encodeChar, if_pos hc]
      rfl
    · cases h

theorem decode_encodeUnits (us : List UInt16) :
    decode (encodeUnits us) = (Utf16.decode us).map String.ofList := by
  unfold decode
  cases hs : Bytes.utf8? (encodeUnits us) with
  | none =>
    show decodeUnits (encodeUnits us) = _
    rw [decodeUnits, units_encodeUnits]
    rfl
  | some s =>
    have hu := units_encodeUnits us
    rw [← Bytes.utf8?_eq_some.mp hs, Bytes.utf8Bytes_eq] at hu
    rw [Utf16.decode_eq_some_iff.mpr (encode_of_units hu), Option.map_some, String.ofList_toList]

/-- Reading undoes the writing of units: well-formed units give the text that they encode, units
with an unpaired surrogate give none. Text in standard UTF-8 is read as it is. -/
theorem decode_written :
    (∀ us s, decode (encodeUnits us) = some s ↔
      ¬ Utf16.Unpaired us ∧ Utf16.encode s.toList = us) ∧
    (∀ us, decode (encodeUnits us) = none ↔ Utf16.Unpaired us) ∧
    ∀ s, decode (utf8Bytes s) = some s := by
  have hn : ∀ us, decode (encodeUnits us) = none ↔ Utf16.Unpaired us := by
    intro us
    rw [decode_encodeUnits, Option.map_eq_none_iff, Utf16.decode_eq_none_iff]
  refine ⟨?_, hn, ?_⟩
  · intro us s
    rw [← hn, ← Utf16.decode_eq_some_iff, decode_encodeUnits]
    cases Utf16.decode us with
    | none => simp
    | some cs => simp [String.ext_iff, eq_comm]
  · intro s
    unfold decode
    rw [Bytes.utf8?_eq_some.mpr rfl]

example : encodeUnits [0, 0x61, 0xE9, 0xD83D] =
    [0xC0, 0x80, 0x61, 0xC3, 0xA9, 0xED, 0xA0, 0xBD] := by decide

end JarIndex.ModifiedUtf8
