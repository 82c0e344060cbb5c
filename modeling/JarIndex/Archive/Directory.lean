import JarIndex.Archive.EndRecord
import JarIndex.Text.CodePage437
import JarIndex.Text.Lossy

/-!
# The directory of an archive

One record for each member. Sizes and offsets that do not fit their fields are
given by an extra field; another one tells the method behind an encrypted
member. Extra fields that break off end the walk and leave what was read.
-/

set_option autoImplicit false

namespace JarIndex.Archive

structure Member where
  name : String
  encrypted : Bool
  aes : Bool
  method : Nat
  checksum : Nat
  size : Nat
  storedSize : Nat
  headerOffset : Nat
  deriving DecidableEq, Repr

namespace Member

def mark : Bytes := [0x50, 0x4B, 1, 2]

def aesMethod : Nat := 99

/-- A value that its field could not hold, from the wide numbers. -/
def widened (value : Nat) : Option Bytes → Nat × Option Bytes
  | none => (value, none)
  | some bs =>
    if value = max32 then
      match Bytes.split? 8 bs with
      | some (front, rest) => (Bytes.littleEndian front, some rest)
      | none => (value, none)
    else (value, some bs)

theorem length_widened {value v : Nat} {bs : Option Bytes} {rest : Bytes}
    (h : widened value bs = (v, some rest)) : ∃ all, bs = some all ∧ rest.length ≤ all.length := by
  unfold widened at h
  split at h
  · cases h
  · rename_i all
    refine ⟨all, rfl, ?_⟩
    split at h
    · split at h
      · rename_i front back hs
        cases h
        rw [(Bytes.split?_eq_some.mp hs).2]
        simp
      · cases h
    · cases h
      exact Nat.le_refl _

def widen (m : Member) (bs : Bytes) : Member × Option Bytes :=
  let (size, bs) := widened m.size (some bs)
  let (storedSize, bs) := widened m.storedSize bs
  let (headerOffset, bs) := widened m.headerOffset bs
  ({ m with size, storedSize, headerOffset }, bs)

theorem length_widen {m w : Member} {bs rest : Bytes} (h : m.widen bs = (w, some rest)) :
    rest.length ≤ bs.length := by
  simp only [widen, Prod.mk.injEq] at h
  obtain ⟨_, h⟩ := h
  obtain ⟨c, hc, h₁⟩ := length_widened (Prod.ext rfl h)
  obtain ⟨b, hb, h₂⟩ := length_widened (Prod.ext rfl hc)
  obtain ⟨a, ha, h₃⟩ := length_widened (Prod.ext rfl hb)
  cases ha
  omega

def aesFieldSize : Nat := 7

def withAes (m : Member) (field : Bytes) : Except Fault Member :=
  let version := Bytes.littleEndian (field.take 2)
  let vendor := Bytes.littleEndian ((field.drop 2).take 2)
  let strength := Bytes.littleEndian ((field.drop 4).take 1)
  if vendor ≠ 0x4541 then .error .aesVendor
  else if version ≠ 1 ∧ version ≠ 2 then .error .aesVendorVersion
  else if strength < 1 ∨ 3 < strength then .error .aesStrength
  else .ok { m with aes := true, method := Bytes.littleEndian (field.drop 5) }

/-- Walks the extra fields. The length of an AES field is skipped once more after it. -/
def extraFields (m : Member) (bs : Bytes) : Except Fault Member :=
  match bs with
  | a :: b :: c :: d :: rest =>
    let kind := Bytes.littleEndian [a, b]
    let length := Bytes.littleEndian [c, d]
    if kind = 1 then
      match _h : m.widen rest with
      | (m, none) => .ok m
      | (m, some left) => extraFields m (left.drop (length - (rest.length - left.length)))
    else if kind = 0x9901 then
      if length ≠ aesFieldSize then .error .aesFieldLength
      else match Bytes.split? aesFieldSize rest with
        | none => .ok m
        | some (field, _) =>
          match m.withAes field with
          | .error f => .error f
          | .ok m => extraFields m (rest.drop (2 * aesFieldSize))
    else extraFields m (rest.drop length)
  | _ => .ok m
termination_by bs.length
decreasing_by
  · have := length_widen _h
    simp
    omega
  · simp
    omega
  · simp
    omega

def decodeName (flags : Nat) (bs : Bytes) : String :=
  if flags.testBit 11 then LossyUtf8.decode bs else CodePage437.decode bs

def fields (shift : Nat) : Fields Member := do
  let found ← Fields.bytes 4
  if found ≠ mark then
    Fields.fail .directoryHeader
  Fields.skip 4
  let flags ← Fields.u16
  let method ← Fields.u16
  Fields.skip 4
  let checksum ← Fields.u32
  let storedSize ← Fields.u32
  let size ← Fields.u32
  let nameLength ← Fields.u16
  let extraLength ← Fields.u16
  let commentLength ← Fields.u16
  Fields.skip 8
  let headerOffset ← Fields.u32
  let name ← Fields.bytes nameLength
  let extra ← Fields.bytes extraLength
  Fields.skip commentLength
  let m : Member :=
    ⟨decodeName flags name, flags.testBit 0, false, method, checksum, size, storedSize, headerOffset⟩
  let m ← m.extraFields extra
  if m.method = aesMethod ∧ !m.aes then
    Fields.fail .aesWithoutField
  if UInt64.size ≤ m.headerOffset + shift then
    Fields.fail .headerOffset
  return { m with headerOffset := m.headerOffset + shift }

end Member

def directory (shift : Nat) : Nat → Fields (List Member)
  | 0 => pure []
  | n + 1 => do
    let m ← Member.fields shift
    let ms ← directory shift n
    return m :: ms

def members (bs : Bytes) : Except Fault (List Member) := do
  let layout ← Layout.find bs
  (directory layout.shift layout.members).readAt layout.start bs

end JarIndex.Archive
