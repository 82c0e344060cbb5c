import JarIndex.Proofs.Bytes
import JarIndex.Text.Lossy

/-!
# Lossy reading of text in UTF-8

Reading with replacements gives back what is written in UTF-8. A character is read
from its first byte, which tells how many follow and in which range the first of
them is, so that none is written longer than it needs to be.
-/

set_option autoImplicit false

namespace JarIndex.LossyUtf8

variable {b lead : UInt8} {low high : UInt8} {n : Nat} {bs : Bytes}

theorem decodeFrom_ascii (h : b.toNat < 0x80) :
    decodeFrom none (b :: bs) = Char.ofNat b.toNat :: decodeFrom none bs := by
  have hb : b < 0x80 := UInt8.lt_iff_toNat_lt.mpr h
  simp [decodeFrom, start, hb]

theorem decodeFrom_lead (hs : 0x80 ≤ lead.toNat) (hf : followers lead = some (low, high, n)) :
    decodeFrom none (lead :: bs) = decodeFrom (some ⟨leadBits lead n, n, low, high⟩) bs := by
  have hn : ¬ lead < 0x80 := by
    rw [UInt8.lt_iff_toNat_lt]
    exact Nat.not_lt.mpr hs
  simp [decodeFrom, start, hn, hf]

theorem decodeFrom_pending {bits missing : Nat} (hl : low.toNat ≤ b.toNat)
    (hh : b.toNat ≤ high.toNat) : decodeFrom (some ⟨bits, missing, low, high⟩) (b :: bs) =
      if missing = 1 then Char.ofNat (bits * 64 + b.toNat % 64) :: decodeFrom none bs
      else decodeFrom (some ⟨bits * 64 + b.toNat % 64, missing - 1, 0x80, 0xBF⟩) bs := by
  have hl' : low ≤ b := UInt8.le_iff_toNat_le.mpr hl
  have hh' : b ≤ high := UInt8.le_iff_toNat_le.mpr hh
  simp [decodeFrom, hl', hh']

theorem followers_eq (lead : UInt8) : followers lead =
    if 0xC2 ≤ lead.toNat ∧ lead.toNat < 0xE0 then some (0x80, 0xBF, 1)
    else if lead.toNat = 0xE0 then some (0xA0, 0xBF, 2)
    else if lead.toNat = 0xED then some (0x80, 0x9F, 2)
    else if 0xE1 ≤ lead.toNat ∧ lead.toNat < 0xF0 then some (0x80, 0xBF, 2)
    else if lead.toNat = 0xF0 then some (0x90, 0xBF, 3)
    else if 0xF1 ≤ lead.toNat ∧ lead.toNat < 0xF4 then some (0x80, 0xBF, 3)
    else if lead.toNat = 0xF4 then some (0x80, 0x8F, 3)
    else none := by
  simp [followers, UInt8.le_iff_toNat_le, UInt8.lt_iff_toNat_lt, ← UInt8.toNat_inj]

theorem followers_three (lead : UInt8) (h : 0xE0 ≤ lead.toNat) (h' : lead.toNat < 0xF0) : ∃ low high,
    followers lead = some (low, high, 2) ∧
    low.toNat = (if lead.toNat = 0xE0 then 0xA0 else 0x80) ∧
    high.toNat = (if lead.toNat = 0xED then 0x9F else 0xBF) := by
  rw [followers_eq, if_neg (by omega)]
  by_cases h0 : lead.toNat = 0xE0
  · rw [if_pos h0]
    exact ⟨_, _, rfl, by simp [h0], by simp [h0]⟩
  · by_cases hd : lead.toNat = 0xED
    · rw [if_neg h0, if_pos hd]
      exact ⟨_, _, rfl, by simp [hd], by simp [hd]⟩
    · rw [if_neg h0, if_neg hd, if_pos (by omega)]
      exact ⟨_, _, rfl, by simp [h0], by simp [hd]⟩

theorem followers_four (lead : UInt8) (h : 0xF0 ≤ lead.toNat) (h' : lead.toNat < 0xF5) : ∃ low high,
    followers lead = some (low, high, 3) ∧
    low.toNat = (if lead.toNat = 0xF0 then 0x90 else 0x80) ∧
    high.toNat = (if lead.toNat = 0xF4 then 0x8F else 0xBF) := by
  rw [followers_eq, if_neg (by omega), if_neg (by omega), if_neg (by omega), if_neg (by omega)]
  by_cases h0 : lead.toNat = 0xF0
  · rw [if_pos h0]
    exact ⟨_, _, rfl, by simp [h0], by simp [h0]⟩
  · by_cases h4 : lead.toNat = 0xF4
    · rw [if_neg h0, if_neg (by omega), if_pos h4]
      exact ⟨_, _, rfl, by simp [h4], by simp [h4]⟩
    · rw [if_neg h0, if_pos (by omega)]
      exact ⟨_, _, rfl, by simp [h0], by simp [h4]⟩

section Characters

variable {v : Nat} (rest : Bytes)

def continuation (v : Nat) : UInt8 := UInt8.ofNat (v % 64 + 0x80)

theorem toNat_continuation (v : Nat) : (continuation v).toNat = v % 64 + 0x80 := by
  unfold continuation
  rw [UInt8.toNat_ofNat']
  omega

theorem decodeFrom_continuation (bits missing : Nat) :
    decodeFrom (some ⟨bits, missing, 0x80, 0xBF⟩) (continuation v :: rest) =
      if missing = 1 then Char.ofNat (bits * 64 + v % 64) :: decodeFrom none rest
      else decodeFrom (some ⟨bits * 64 + v % 64, missing - 1, 0x80, 0xBF⟩) rest := by
  have hc := toNat_continuation v
  have hm : (continuation v).toNat % 64 = v % 64 := by omega
  rw [decodeFrom_pending, hm]
  · show 128 ≤ _
    omega
  · show _ ≤ 191
    omega

theorem decodeFrom_two (h : 0x80 ≤ v) (h' : v < 0x800) :
    decodeFrom none (UInt8.ofNat (v / 64 % 32 + 0xC0) :: continuation v :: rest) =
      Char.ofNat v :: decodeFrom none rest := by
  have hl : (UInt8.ofNat (v / 64 % 32 + 0xC0)).toNat = v / 64 + 0xC0 := by
    rw [UInt8.toNat_ofNat']
    omega
  have hf : followers (UInt8.ofNat (v / 64 % 32 + 0xC0)) = some (0x80, 0xBF, 1) := by
    rw [followers_eq, hl, if_pos (by omega)]
  have hv : (v / 64 + 0xC0) % 32 * 64 + v % 64 = v := by omega
  rw [decodeFrom_lead (by omega) hf, decodeFrom_continuation, if_pos rfl, leadBits, hl, hv]

theorem decodeFrom_three (h : 0x800 ≤ v) (h' : v < 0x10000) (hs : v < 0xD800 ∨ 0xDFFF < v) :
    decodeFrom none (UInt8.ofNat (v / 4096 % 16 + 0xE0) :: continuation (v / 64) ::
      continuation v :: rest) = Char.ofNat v :: decodeFrom none rest := by
  have hl : (UInt8.ofNat (v / 4096 % 16 + 0xE0)).toNat = v / 4096 + 0xE0 := by
    rw [UInt8.toNat_ofNat']
    omega
  obtain ⟨low, high, hf, hlow, hhigh⟩ :=
    followers_three (UInt8.ofNat (v / 4096 % 16 + 0xE0)) (by omega) (by omega)
  have hc := toNat_continuation (v / 64)
  have hv : ((v / 4096 + 0xE0) % 16 * 64 + (continuation (v / 64)).toNat % 64) * 64 + v % 64 = v := by
    omega
  rw [hl] at hlow hhigh
  rw [decodeFrom_lead (by omega) hf, decodeFrom_pending, if_neg (by decide),
    decodeFrom_continuation, if_pos rfl, leadBits, hl, hv]
  · split at hlow <;> omega
  · split at hhigh <;> omega

theorem leadBits_three (lead : UInt8) : leadBits lead 3 = lead.toNat % 8 := rfl

theorem decodeFrom_four (h : 0x10000 ≤ v) (h' : v < 0x110000) :
    decodeFrom none (UInt8.ofNat (v / 262144 % 8 + 0xF0) :: continuation (v / 4096) ::
      continuation (v / 64) :: continuation v :: rest) = Char.ofNat v :: decodeFrom none rest := by
  have hl : (UInt8.ofNat (v / 262144 % 8 + 0xF0)).toNat = v / 262144 + 0xF0 := by
    rw [UInt8.toNat_ofNat']
    omega
  obtain ⟨low, high, hf, hlow, hhigh⟩ :=
    followers_four (UInt8.ofNat (v / 262144 % 8 + 0xF0)) (by omega) (by omega)
  have hc := toNat_continuation (v / 4096)
  have hv : (((v / 262144 + 0xF0) % 8 * 64 + (continuation (v / 4096)).toNat % 64) * 64 +
      v / 64 % 64) * 64 + v % 64 = v := by
    omega
  rw [hl] at hlow hhigh
  rw [decodeFrom_lead (by omega) hf, decodeFrom_pending, if_neg (by decide),
    decodeFrom_continuation, if_neg (by decide), decodeFrom_continuation, if_pos rfl,
    leadBits_three, hl, hv]
  · split at hlow <;> omega
  · split at hhigh <;> omega

end Characters

theorem decodeFrom_encodeChar (c : Char) (rest : Bytes) :
    decodeFrom none (String.utf8EncodeChar c ++ rest) = c :: decodeFrom none rest := by
  have back : Char.ofNat c.val.toNat = c := Char.ofNat_toNat c
  have valid : c.val.toNat < 0xD800 ∨ 0xDFFF < c.val.toNat ∧ c.val.toNat < 0x110000 := c.valid
  fun_cases String.utf8EncodeChar c with
  | case1 v h =>
    have hn : (UInt8.ofNat v).toNat = v := by
      rw [UInt8.toNat_ofNat']
      omega
    show decodeFrom none (UInt8.ofNat v :: rest) = _
    rw [decodeFrom_ascii (by omega), hn, back]
  | case2 v h h' => exact (decodeFrom_two rest (by omega) (by omega)).trans (by rw [back])
  | case3 v h h' h'' =>
    exact (decodeFrom_three rest (by omega) (by omega) (by omega)).trans (by rw [back])
  | case4 v h h' h'' =>
    exact (decodeFrom_four rest (by omega) (by omega)).trans (by rw [back])

theorem decodeFrom_encode (cs : List Char) :
    decodeFrom none (cs.flatMap String.utf8EncodeChar) = cs := by
  induction cs with
  | nil => rfl
  | cons c cs ih => rw [List.flatMap_cons, decodeFrom_encodeChar, ih]

theorem decode_utf8Bytes (s : String) : decode (utf8Bytes s) = s := by
  unfold decode
  rw [Bytes.utf8Bytes_eq, decodeFrom_encode, String.ofList_toList]

end JarIndex.LossyUtf8
