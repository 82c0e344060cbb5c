import JarIndex.Text.Utf16

/-!
# Well-formed UTF-16

Units are the form of a text exactly if each surrogate among them has its partner
next to it. A text has one form, and reading it gives the text back.
-/

set_option autoImplicit false

namespace JarIndex.Utf16

variable {u v : UInt16} {us : List UInt16} {cs : List Char} {c : Char}

theorem isHigh_iff : isHigh u = true ↔ 0xD800 ≤ u.toNat ∧ u.toNat < 0xDC00 := by
  simp [isHigh, UInt16.le_iff_toNat_le, UInt16.lt_iff_toNat_lt]

theorem isLow_iff : isLow u = true ↔ 0xDC00 ≤ u.toNat ∧ u.toNat < 0xE000 := by
  simp [isLow, UInt16.le_iff_toNat_le, UInt16.lt_iff_toNat_lt]

theorem isHigh_of_isLow (h : isLow u = true) : isHigh u = false := by
  rw [← Bool.not_eq_true, isHigh_iff]
  rw [isLow_iff] at h
  omega

section Reading

theorem decode_plain (hh : isHigh u = false) (hl : isLow u = false) :
    decode (u :: us) = (decode us).map (Char.ofNat u.toNat :: ·) := by
  rw [decode.eq_def]
  simp [hh, hl]

theorem decode_pair (hh : isHigh u = true) (hl : isLow v = true) :
    decode (u :: v :: us) = (decode us).map (ofPair u v :: ·) := by
  rw [decode.eq_def]
  simp [hh, hl]

theorem decode_encodeChar (c : Char) (us : List UInt16) :
    decode (encodeChar c ++ us) = (decode us).map (c :: ·) := by
  have valid : c.toNat < 0xD800 ∨ 0xDFFF < c.toNat ∧ c.toNat < 0x110000 := c.valid
  unfold encodeChar
  by_cases h : c.toNat < 0x10000
  · have hn : (UInt16.ofNat c.toNat).toNat = c.toNat := by
      rw [UInt16.toNat_ofNat']
      omega
    have hh : isHigh (UInt16.ofNat c.toNat) = false := by
      rw [← Bool.not_eq_true, isHigh_iff]
      omega
    have hl : isLow (UInt16.ofNat c.toNat) = false := by
      rw [← Bool.not_eq_true, isLow_iff]
      omega
    rw [if_pos h, List.singleton_append, decode_plain hh hl, hn, Char.ofNat_toNat]
  · have hu : (UInt16.ofNat (0xD800 + (c.toNat - 0x10000) / 0x400)).toNat =
        0xD800 + (c.toNat - 0x10000) / 0x400 := by
      rw [UInt16.toNat_ofNat']
      omega
    have hv : (UInt16.ofNat (0xDC00 + (c.toNat - 0x10000) % 0x400)).toNat =
        0xDC00 + (c.toNat - 0x10000) % 0x400 := by
      rw [UInt16.toNat_ofNat']
      omega
    have hn : 0x10000 + (0xD800 + (c.toNat - 0x10000) / 0x400 - 0xD800) * 0x400 +
        (0xDC00 + (c.toNat - 0x10000) % 0x400 - 0xDC00) = c.toNat := by
      omega
    have hh := isHigh_iff.mpr (by rw [hu]; omega)
    have hl := isLow_iff.mpr (by rw [hv]; omega)
    rw [if_neg h, List.cons_append, List.singleton_append, decode_pair hh hl, ofPair, hu, hv, hn,
      Char.ofNat_toNat]

theorem decode_encode (cs : List Char) : decode (encode cs) = some cs := by
  induction cs with
  | nil => rw [encode, List.flatMap_nil, decode]
  | cons c cs ih =>
    have hc : encode (c :: cs) = encodeChar c ++ encode cs := List.flatMap_cons
    rw [hc, decode_encodeChar, ih]
    rfl

end Reading

section Writing

theorem encodeChar_plain (hh : isHigh u = false) (hl : isLow u = false) :
    encodeChar (Char.ofNat u.toNat) = [u] := by
  have hu := u.toNat_lt
  rw [← Bool.not_eq_true, isHigh_iff] at hh
  rw [← Bool.not_eq_true, isLow_iff] at hl
  have valid : u.toNat.isValidChar := by
    unfold Nat.isValidChar
    omega
  have hc : (Char.ofNat u.toNat).toNat = u.toNat := by
    rw [Char.ofNat, dif_pos valid]
    rfl
  unfold encodeChar
  rw [hc, if_pos (by omega), UInt16.ofNat_toNat]

theorem encodeChar_pair (hh : isHigh u = true) (hl : isLow v = true) :
    encodeChar (ofPair u v) = [u, v] := by
  rw [isHigh_iff] at hh
  rw [isLow_iff] at hl
  have valid : (0x10000 + (u.toNat - 0xD800) * 0x400 + (v.toNat - 0xDC00)).isValidChar := by
    unfold Nat.isValidChar
    omega
  have hc : (ofPair u v).toNat =
      0x10000 + (u.toNat - 0xD800) * 0x400 + (v.toNat - 0xDC00) := by
    rw [ofPair, Char.ofNat, dif_pos valid]
    rfl
  have hu : 0xD800 + ((ofPair u v).toNat - 0x10000) / 0x400 = u.toNat := by omega
  have hv : 0xDC00 + ((ofPair u v).toNat - 0x10000) % 0x400 = v.toNat := by omega
  unfold encodeChar
  rw [if_neg (by omega), hu, hv, UInt16.ofNat_toNat, UInt16.ofNat_toNat]

theorem encode_of_decode (h : decode us = some cs) : encode cs = us := by
  fun_induction decode us generalizing cs with
  | case1 =>
    cases h
    rfl
  | case2 => cases h
  | case3 u hh v vs hl ih =>
    obtain ⟨ds, hd, rfl⟩ := Option.map_eq_some_iff.mp h
    show encodeChar (ofPair u v) ++ encode ds = _
    rw [encodeChar_pair hh hl, ih hd]
    rfl
  | case4 => cases h
  | case5 => cases h
  | case6 u us hh hl ih =>
    obtain ⟨ds, hd, rfl⟩ := Option.map_eq_some_iff.mp h
    show encodeChar (Char.ofNat u.toNat) ++ encode ds = _
    rw [encodeChar_plain (by simpa using hh) (by simpa using hl), ih hd]
    rfl

theorem decode_eq_some_iff : decode us = some cs ↔ encode cs = us := by
  constructor
  · exact encode_of_decode
  · intro h
    rw [← h]
    exact decode_encode cs

end Writing

/-- That some surrogate is without its partner: a high one with no low one behind it, or a low
one with no high one in front of it. -/
def Unpaired (us : List UInt16) : Prop :=
  ∃ i u, us[i]? = some u ∧
    ((isHigh u = true ∧ ∀ v, us[i + 1]? = some v → isLow v = false) ∨
      (isLow u = true ∧ ∀ j v, j + 1 = i → us[j]? = some v → isHigh v = false))

section Pairing

theorem not_unpaired_nil : ¬ Unpaired [] := by
  intro h
  obtain ⟨i, u, he, -⟩ := h
  simp at he

theorem unpaired_high (hh : isHigh u = true) (hl : ∀ v, us.head? = some v → isLow v = false) :
    Unpaired (u :: us) := by
  refine ⟨0, u, rfl, Or.inl ⟨hh, ?_⟩⟩
  intro v hv
  apply hl v
  rw [List.head?_eq_getElem?, ← hv]
  rfl

theorem unpaired_low (hl : isLow u = true) : Unpaired (u :: us) := by
  refine ⟨0, u, rfl, Or.inr ⟨hl, ?_⟩⟩
  intro j v hj
  omega

theorem unpaired_behind (hh : isHigh u = false) (h : Unpaired us) : Unpaired (u :: us) := by
  obtain ⟨i, w, he, hw⟩ := h
  refine ⟨i + 1, w, he, hw.imp_right ?_⟩
  intro ⟨hl, hf⟩
  refine ⟨hl, ?_⟩
  intro j v hj hv
  cases j with
  | zero =>
    cases hv
    exact hh
  | succ j => exact hf j v (by omega) hv

theorem unpaired_plain (hh : isHigh u = false) (hl : isLow u = false) :
    Unpaired (u :: us) ↔ Unpaired us := by
  constructor
  · intro h
    obtain ⟨i, w, he, hw⟩ := h
    cases i with
    | zero =>
      cases he
      simp [hh, hl] at hw
    | succ i =>
      refine ⟨i, w, he, hw.imp_right ?_⟩
      intro ⟨hw, hf⟩
      exact ⟨hw, fun j v hj hv => hf (j + 1) v (by omega) hv⟩
  · exact unpaired_behind hh

theorem unpaired_pair (hh : isHigh u = true) (hl : isLow v = true) :
    Unpaired (u :: v :: us) ↔ Unpaired us := by
  have hv := isHigh_of_isLow hl
  constructor
  · intro h
    obtain ⟨i, w, he, hw⟩ := h
    match i with
    | 0 =>
      cases he
      rcases hw with ⟨-, hn⟩ | ⟨hw, -⟩
      · rw [hn v rfl] at hl
        cases hl
      · rw [isHigh_of_isLow hw] at hh
        cases hh
    | 1 =>
      cases he
      rcases hw with ⟨hw, -⟩ | ⟨-, hn⟩
      · rw [hv] at hw
        cases hw
      · rw [hn 0 u rfl rfl] at hh
        cases hh
    | i + 2 =>
      refine ⟨i, w, he, hw.imp_right ?_⟩
      intro ⟨hw, hf⟩
      exact ⟨hw, fun j x hj hx => hf (j + 2) x (by omega) hx⟩
  · intro h
    obtain ⟨i, w, he, hw⟩ := h
    refine ⟨i + 2, w, he, hw.imp_right ?_⟩
    intro ⟨hw, hf⟩
    refine ⟨hw, ?_⟩
    intro j x hj hx
    match j with
    | 0 => omega
    | 1 =>
      cases hx
      exact hv
    | j + 2 => exact hf j x (by omega) hx

theorem decode_eq_none_iff : decode us = none ↔ Unpaired us := by
  fun_induction decode us with
  | case1 => simp [not_unpaired_nil]
  | case2 u hh => exact iff_of_true rfl (unpaired_high hh (by simp))
  | case3 u hh v vs hl ih => rw [Option.map_eq_none_iff, ih, unpaired_pair hh hl]
  | case4 u hh v vs hl => exact iff_of_true rfl (unpaired_high hh (by simpa using hl))
  | case5 u us hh hl => exact iff_of_true rfl (unpaired_low hl)
  | case6 u us hh hl ih =>
    rw [Option.map_eq_none_iff, ih, unpaired_plain (by simpa using hh) (by simpa using hl)]

end Pairing

end JarIndex.Utf16
