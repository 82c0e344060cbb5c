import JarIndex.Bytes
import Mathlib.Algebra.Group.Nat.Defs
import Mathlib.Data.List.Induction

/-!
# Writing numbers and text

A number that fits a field has exactly one form of the field's width, and every
byte string is the form of the number it reads as. Text is read strictly from its
own form in UTF-8 and from nothing else.
-/

set_option autoImplicit false

namespace JarIndex.Bytes

theorem littleEndian_ofNatLE (w n : Nat) : littleEndian (ofNatLE w n) = n % 256 ^ w := by
  induction w generalizing n with
  | zero => simp [ofNatLE, littleEndian, Nat.mod_one]
  | succ w ih =>
    have byte : (UInt8.ofNat n).toNat = n % 256 := by simp
    rw [ofNatLE, littleEndian, ih, byte, Nat.pow_succ', Nat.mod_mul]

def ofNatBE : Nat → Nat → Bytes
  | 0, _ => []
  | w + 1, n => ofNatBE w (n / 256) ++ [UInt8.ofNat n]

@[simp] theorem length_ofNatBE (w n : Nat) : (ofNatBE w n).length = w := by
  induction w generalizing n with
  | zero => rfl
  | succ w ih => simp [ofNatBE, ih]

theorem bigEndian_snoc (bs : Bytes) (b : UInt8) :
    bigEndian (bs ++ [b]) = 256 * bigEndian bs + b.toNat := by
  simp [bigEndian]

theorem bigEndian_ofNatBE (w n : Nat) (h : n < 256 ^ w) : bigEndian (ofNatBE w n) = n := by
  induction w generalizing n with
  | zero =>
    have hn : n = 0 := by simpa using h
    rw [hn]
    rfl
  | succ w ih =>
    have hq : n / 256 < 256 ^ w := by
      rw [Nat.pow_succ] at h
      omega
    have hb : (UInt8.ofNat n).toNat = n % 256 := by simp
    rw [ofNatBE, bigEndian_snoc, ih _ hq, hb]
    omega

theorem bigEndian_lt (bs : Bytes) : bigEndian bs < 256 ^ bs.length := by
  induction bs using List.reverseRecOn with
  | nil => simp [bigEndian]
  | append_singleton bs b ih =>
    have hb := b.toNat_lt
    rw [bigEndian_snoc, List.length_append, List.length_singleton, Nat.pow_succ]
    omega

theorem ofNatBE_bigEndian (bs : Bytes) : ofNatBE bs.length (bigEndian bs) = bs := by
  induction bs using List.reverseRecOn with
  | nil => rfl
  | append_singleton bs b ih =>
    have hb := b.toNat_lt
    have hq : (256 * bigEndian bs + b.toNat) / 256 = bigEndian bs := by omega
    have hr : UInt8.ofNat (256 * bigEndian bs + b.toNat) = b := by
      apply UInt8.toNat.inj
      simp
    rw [List.length_append, List.length_singleton, ofNatBE, bigEndian_snoc, hq, hr, ih]

theorem utf8Bytes_eq (s : String) : utf8Bytes s = s.toList.flatMap String.utf8EncodeChar := by
  unfold utf8Bytes
  rw [← String.utf8Encode_toList]
  simp [List.utf8Encode]

theorem utf8?_eq_some {bs : Bytes} {s : String} : utf8? bs = some s ↔ utf8Bytes s = bs := by
  unfold utf8? String.fromUTF8? utf8Bytes
  constructor
  · intro h
    split at h
    · cases h
      exact List.toList_data_toByteArray
    · cases h
  · intro h
    have hb : bs.toByteArray = s.toByteArray := by
      apply ByteArray.ext
      rw [← h]
      simp
    rw [hb, dif_pos s.isValidUTF8]
    rfl

end JarIndex.Bytes
