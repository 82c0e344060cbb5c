/-!
# Byte strings and their fixed-width fields

A field is read off the front of a byte string. Reading fails only when the
string is too short, and then nothing is consumed.
-/

set_option autoImplicit false

namespace JarIndex

abbrev Bytes := List UInt8

namespace Bytes

def split? (n : Nat) (bs : Bytes) : Option (Bytes × Bytes) :=
  let front := bs.take n
  if front.length = n then some (front, bs.drop n) else none

theorem split?_append (a b : Bytes) : split? a.length (a ++ b) = some (a, b) := by
  simp [split?]

theorem split?_eq_some {n : Nat} {bs a b : Bytes} :
    split? n bs = some (a, b) ↔ a.length = n ∧ bs = a ++ b := by
  constructor
  · intro h
    simp only [split?] at h
    split at h
    · rename_i hn
      cases h
      exact ⟨hn, (List.take_append_drop n bs).symm⟩
    · cases h
  · rintro ⟨rfl, rfl⟩
    exact split?_append a b

theorem split?_eq_none {n : Nat} {bs : Bytes} : split? n bs = none ↔ bs.length < n := by
  simp only [split?, List.length_take]
  split <;> simp <;> omega

def bigEndian (bs : Bytes) : Nat := bs.foldl (fun v b => 256 * v + b.toNat) 0

def littleEndian : Bytes → Nat
  | [] => 0
  | b :: bs => b.toNat + 256 * littleEndian bs

def ofNatLE : Nat → Nat → Bytes
  | 0, _ => []
  | w + 1, n => UInt8.ofNat n :: ofNatLE w (n / 256)

@[simp] theorem length_ofNatLE (w n : Nat) : (ofNatLE w n).length = w := by
  induction w generalizing n with
  | zero => rfl
  | succ w ih => simp [ofNatLE, ih]

def utf8? (bs : Bytes) : Option String := String.fromUTF8? bs.toByteArray

end Bytes

def utf8Bytes (s : String) : Bytes := s.toByteArray.data.toList

end JarIndex
