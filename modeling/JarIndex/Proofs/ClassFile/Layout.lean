import JarIndex.ClassFile.Header
import JarIndex.Proofs.Bytes

/-!
# The layout of a class file

A layout lists the parts of a class file with all that is written in them, and
its bytes are these parts one after the other. What it tells about the class is
read off the slots of its constants. Nothing here reads bytes.
-/

set_option autoImplicit false

namespace JarIndex.ClassFile

open Bytes (ofNatBE)

/-- The tags of the constants that keep no data, and how many bytes follow each. -/
def otherSizes : List (Nat × Nat) :=
  [(3, 4), (4, 4), (8, 2), (9, 4), (10, 4), (11, 4), (12, 4), (15, 3), (16, 2), (17, 4), (18, 4),
    (19, 2), (20, 2)]

inductive Constant where
  | text (content : Bytes) (short : content.length < 2 ^ 16)
  | classNamed (name : UInt16)
  | wide (tag : Nat) (payload : Bytes) (tagged : tag = 5 ∨ tag = 6) (sized : payload.length = 8)
  | other (tag : Nat) (payload : Bytes) (sized : (tag, payload.length) ∈ otherSizes)

namespace Constant

def tag : Constant → Nat
  | .text _ _ => 1
  | .classNamed _ => 7
  | .wide tag _ _ _ => tag
  | .other tag _ _ => tag

def payload : Constant → Bytes
  | .text content _ => ofNatBE 2 content.length ++ content
  | .classNamed name => ofNatBE 2 name.toNat
  | .wide _ payload _ _ => payload
  | .other _ payload _ => payload

def bytes (k : Constant) : Bytes := ofNatBE 1 k.tag ++ k.payload

def slot : Constant → Slot
  | .text content _ => .text content
  | .classNamed name => .classNamed name.toNat
  | .wide _ _ _ _ => .wide
  | .other _ _ _ => .other

/-- The slots that a constant takes; the second one of a wide constant names nothing. -/
def slots (k : Constant) : List Slot :=
  if k.slot = .wide then [.wide, .unusable] else [k.slot]

end Constant

/-- Constants for the slots from `next` on, read for exactly as long as the next free slot
is below `count`. -/
structure Fills (count next : Nat) (ks : List Constant) : Prop where
  full : count ≤ next + (ks.flatMap Constant.slots).length
  needed : ∀ front k back, ks = front ++ k :: back →
    next + (front.flatMap Constant.slots).length < count

structure Attribute where
  name : UInt16
  content : Bytes
  short : content.length < 2 ^ 32

def Attribute.bytes (a : Attribute) : Bytes :=
  ofNatBE 2 a.name.toNat ++ ofNatBE 4 a.content.length ++ a.content

/-- A field or a method: flags, name and descriptor in six bytes, and its attributes. -/
structure Member where
  front : Bytes
  attributes : List Attribute
  sized : front.length = 6
  few : attributes.length < 2 ^ 16

def Member.bytes (m : Member) : Bytes :=
  m.front ++ ofNatBE 2 m.attributes.length ++ m.attributes.flatMap Attribute.bytes

structure Layout where
  minor : UInt16
  major : UInt16
  count : UInt16
  constants : List Constant
  access : UInt16
  thisClass : UInt16
  superClass : UInt16
  interfaceCount : UInt16
  interfaces : Bytes
  fields : List Member
  methods : List Member
  attributes : List Attribute
  filled : Fills count.toNat 1 constants
  interfaces_sized : interfaces.length = 2 * interfaceCount.toNat
  few_fields : fields.length < 2 ^ 16
  few_methods : methods.length < 2 ^ 16
  few_attributes : attributes.length < 2 ^ 16

def Layout.bytes (l : Layout) : Bytes :=
  [0xCA, 0xFE, 0xBA, 0xBE] ++ ofNatBE 2 l.minor.toNat ++ ofNatBE 2 l.major.toNat ++
    ofNatBE 2 l.count.toNat ++ l.constants.flatMap Constant.bytes ++
    ofNatBE 2 l.access.toNat ++ ofNatBE 2 l.thisClass.toNat ++ ofNatBE 2 l.superClass.toNat ++
    ofNatBE 2 l.interfaceCount.toNat ++ l.interfaces ++
    ofNatBE 2 l.fields.length ++ l.fields.flatMap Member.bytes ++
    ofNatBE 2 l.methods.length ++ l.methods.flatMap Member.bytes ++
    ofNatBE 2 l.attributes.length ++ l.attributes.flatMap Attribute.bytes

def Layout.slots (l : Layout) : List Slot := .unusable :: l.constants.flatMap Constant.slots

def TextAt (slots : List Slot) (i : Nat) (s : String) : Prop :=
  ∃ content, slots[i]? = some (.text content) ∧ ModifiedUtf8.decode content = some s

namespace Attribute

def IsNamed (slots : List Slot) (a : Attribute) : Prop :=
  ∃ content, slots[a.name.toNat]? = some (.text content)

def IsSource (slots : List Slot) (a : Attribute) : Prop :=
  slots[a.name.toNat]? = some (.text sourceFileName)

def Tells (slots : List Slot) (a : Attribute) (s : String) : Prop :=
  ∃ value : UInt16, a.content = ofNatBE 2 value.toNat ∧ TextAt slots value.toNat s

structure Legible (slots : List Slot) (as : List Attribute) : Prop where
  named : ∀ a ∈ as, a.IsNamed slots
  told : ∀ a ∈ as, a.IsSource slots → ∃ s, a.Tells slots s

/-- The last source file attribute tells `s`. -/
def LastTells (slots : List Slot) (as : List Attribute) (s : String) : Prop :=
  ∃ front a back, as = front ++ a :: back ∧ a.IsSource slots ∧ a.Tells slots s ∧
    ∀ b ∈ back, ¬ b.IsSource slots

end Attribute

/-- What a layout must say to be the layout of a class with this header. -/
structure Layout.Describes (l : Layout) (h : Header) : Prop where
  legible : Attribute.Legible l.slots l.attributes
  sourceFile : ∀ s, h.sourceFile = some s ↔ Attribute.LastTells l.slots l.attributes s
  className : ∃ name s, l.slots[l.thisClass.toNat]? = some (.classNamed name) ∧
    TextAt l.slots name s ∧ h.className = dotted s

section Slots

theorem fills_nil {count next : Nat} : Fills count next [] ↔ count ≤ next := by
  constructor
  · intro h
    exact h.full
  · intro h
    refine ⟨h, ?_⟩
    intro front k back hk
    simp at hk

theorem fills_cons {count next : Nat} {k : Constant} {ks : List Constant} :
    Fills count next (k :: ks) ↔ next < count ∧ Fills count (next + k.slots.length) ks := by
  constructor
  · intro h
    refine ⟨h.needed [] k ks rfl, ?_, ?_⟩
    · simpa [Nat.add_assoc] using h.full
    · intro front j back hk
      simpa [Nat.add_assoc] using h.needed (k :: front) j back (by rw [hk]; rfl)
  · intro hw
    obtain ⟨hn, h⟩ := hw
    refine ⟨by simpa [Nat.add_assoc] using h.full, ?_⟩
    intro front j back hk
    cases front with
    | nil => exact hn
    | cons f front =>
      obtain ⟨rfl, hks⟩ := List.cons.inj hk
      simpa [Nat.add_assoc] using h.needed front j back hks

theorem other_tag {tag n : Nat} (h : (tag, n) ∈ otherSizes) :
    tag < 256 ∧ tag ≠ 1 ∧ tag ≠ 7 ∧ tag ≠ 5 ∧ tag ≠ 6 := by
  simp only [otherSizes, List.mem_cons, Prod.mk.injEq, List.not_mem_nil, or_false] at h
  omega

theorem textAt_unique {slots : List Slot} {i : Nat} {s t : String} (hs : TextAt slots i s)
    (ht : TextAt slots i t) : s = t := by
  obtain ⟨content, hc, hs⟩ := hs
  obtain ⟨content', hc', ht⟩ := ht
  cases hc.symm.trans hc'
  exact Option.some.inj (hs.symm.trans ht)

end Slots

namespace Attribute

variable {slots : List Slot}

theorem tells_unique {a : Attribute} {s t : String} (hs : a.Tells slots s)
    (ht : a.Tells slots t) : s = t := by
  obtain ⟨v, hv, hs⟩ := hs
  obtain ⟨w, hw, ht⟩ := ht
  have hvw : v.toNat = w.toNat := by
    rw [← Bytes.bigEndian_ofNatBE 2 v.toNat v.toNat_lt, ← hv, hw,
      Bytes.bigEndian_ofNatBE 2 w.toNat w.toNat_lt]
  rw [hvw] at hs
  exact textAt_unique hs ht

theorem legible_nil : Legible slots [] := ⟨by simp, by simp⟩

theorem legible_cons {a : Attribute} {as : List Attribute} : Legible slots (a :: as) ↔
    a.IsNamed slots ∧ (a.IsSource slots → ∃ s, a.Tells slots s) ∧ Legible slots as := by
  constructor
  · intro h
    exact ⟨h.named a (by simp), h.told a (by simp), fun b hb => h.named b (by simp [hb]),
      fun b hb => h.told b (by simp [hb])⟩
  · intro hw
    obtain ⟨hn, ht, h⟩ := hw
    constructor
    · intro b hb
      rcases List.mem_cons.mp hb with rfl | hb
      · exact hn
      · exact h.named b hb
    · intro b hb
      rcases List.mem_cons.mp hb with rfl | hb
      · exact ht
      · exact h.told b hb

theorem lastTells_nil {s : String} : ¬ LastTells slots [] s := by
  intro hw
  obtain ⟨front, a, back, h, -⟩ := hw
  simp at h

theorem lastTells_cons {a : Attribute} {as : List Attribute} {s : String} :
    LastTells slots (a :: as) s ↔ LastTells slots as s ∨
      (a.IsSource slots ∧ a.Tells slots s ∧ ∀ b ∈ as, ¬ b.IsSource slots) := by
  constructor
  · intro hw
    obtain ⟨front, b, back, h, hb, hs, hback⟩ := hw
    cases front with
    | nil =>
      obtain ⟨rfl, rfl⟩ := List.cons.inj h
      exact Or.inr ⟨hb, hs, hback⟩
    | cons f front =>
      obtain ⟨rfl, rfl⟩ := List.cons.inj h
      exact Or.inl ⟨front, b, back, rfl, hb, hs, hback⟩
  · intro hw
    rcases hw with ⟨front, b, back, rfl, hb, hs, hback⟩ | ⟨ha, hs, has⟩
    · exact ⟨a :: front, b, back, rfl, hb, hs, hback⟩
    · exact ⟨[], a, as, rfl, ha, hs, has⟩

end Attribute

end JarIndex.ClassFile
