import JarIndex.Proofs.ClassFile.Attributes

/-!
# What is accepted as a class file

The header reader recognizes exactly the bytes of the layouts that describe a
class. Each part of a layout has its reader, and both directions follow from what
the readers of the parts recognize.
-/

set_option autoImplicit false

namespace JarIndex.ClassFile

open Bytes (ofNatBE)

namespace Reader

/-- The class attributes, and the header that they and the class's own name make. -/
def Ending (slots : List Slot) (thisClass : Nat) : Form Header := fun bs h =>
  ∃ as : List Attribute, as.length < 2 ^ 16 ∧
    bs = ofNatBE 2 as.length ++ as.flatMap Attribute.bytes ∧ Attribute.Legible slots as ∧
    (∀ s, h.sourceFile = some s ↔ Attribute.LastTells slots as s) ∧
    ∃ name s, slots[thisClass]? = some (.classNamed name) ∧ TextAt slots name s ∧
      h.className = dotted s

theorem recognizes_ending (pool : ConstantPool) (thisClass : Nat) :
    Recognizes (do
      let attributes ← u2
      let sourceFile ← classAttributes pool attributes none
      let name ← pool.className thisClass
      return ⟨dotted name, sourceFile⟩) (Ending pool.toList thisClass) := by
  apply recognizes_congr (recognizes_bind recognizes_count fun attributes =>
    recognizes_bind (recognizes_classAttributes pool attributes none) fun sourceFile =>
    recognizes_bind (recognizes_lift (pool.className thisClass)) fun name =>
    recognizes_pure (⟨dotted name, sourceFile⟩ : Header))
  intro bs h
  constructor
  · intro hw
    obtain ⟨_, _, _, ⟨hfew, rfl⟩, ⟨sourceFile, _, _, ⟨as, rfl, rfl, hlegible, hsource⟩,
      ⟨s, _, _, ⟨rfl, hs⟩, ⟨rfl, rfl⟩, rfl⟩, rfl⟩, rfl⟩ := hw
    obtain ⟨name, hname, htext⟩ := className_eq_ok.mp hs
    refine ⟨as, hfew, by simp, hlegible, ?_, name, s, hname, htext, rfl⟩
    intro t
    simpa using hsource t
  · intro hw
    obtain ⟨as, hfew, rfl, hlegible, hsource, name, s, hname, htext, hclass⟩ := hw
    apply Form.andThen_append as.length ⟨hfew, rfl⟩
    rw [← List.append_nil (as.flatMap Attribute.bytes)]
    apply Form.andThen_append h.sourceFile
    · refine ⟨as, rfl, rfl, hlegible, ?_⟩
      intro t
      simpa using hsource t
    · have hs := className_eq_ok.mpr ⟨name, hname, htext⟩
      exact ⟨s, [], [], ⟨rfl, hs⟩, ⟨rfl, by rw [← hclass]⟩, rfl⟩

theorem recognizes_header :
    Recognizes header (fun bs h => ∃ l : Layout, bs = l.bytes ∧ l.Describes h) := by
  apply recognizes_congr (recognizes_bind recognizes_expectMagic fun _ =>
    recognizes_bind recognizes_skip_u2 fun _ => recognizes_bind recognizes_skip_u2 fun _ =>
    recognizes_bind recognizes_pool fun pool =>
    recognizes_bind recognizes_skip_u2 fun _ => recognizes_bind recognizes_u2 fun thisClass =>
    recognizes_bind recognizes_skip_u2 fun _ =>
    recognizes_interfaces_then (recognizes_members_then (recognizes_members_then
      (recognizes_ending pool thisClass))))
  intro bs h
  constructor
  · intro hw
    obtain ⟨_, _, _, rfl, hw, rfl⟩ := hw
    obtain ⟨_, _, _, ⟨minor, rfl⟩, hw, rfl⟩ := hw
    obtain ⟨_, _, _, ⟨major, rfl⟩, hw, rfl⟩ := hw
    obtain ⟨pool, _, _, ⟨count, ks, hfills, rfl, hpool⟩, hw, rfl⟩ := hw
    obtain ⟨_, _, _, ⟨access, rfl⟩, hw, rfl⟩ := hw
    obtain ⟨_, _, _, ⟨thisClass, rfl, rfl⟩, hw, rfl⟩ := hw
    obtain ⟨_, _, _, ⟨superClass, rfl⟩, hbody, rfl⟩ := hw
    obtain ⟨interfaceCount, interfaces, _, hinterfaces, hbody, rfl⟩ := hbody
    obtain ⟨fields, _, hfields, hbody, rfl⟩ := hbody
    obtain ⟨methods, _, hmethods, hending, rfl⟩ := hbody
    obtain ⟨as, hattributes, rfl, hlegible, hsource, hclass⟩ := hending
    rw [hpool] at hlegible hsource hclass
    refine ⟨⟨minor, major, count, ks, access, thisClass, superClass, interfaceCount, interfaces,
      fields, methods, as, hfills, hinterfaces, hfields, hmethods, hattributes⟩, ?_,
      hlegible, hsource, hclass⟩
    simp only [Layout.bytes, List.append_assoc]
  · intro hw
    obtain ⟨l, rfl, hd⟩ := hw
    let pool : ConstantPool := l.slots.toArray
    have hending : Ending pool.toList l.thisClass.toNat
        (ofNatBE 2 l.attributes.length ++ l.attributes.flatMap Attribute.bytes) h :=
      ⟨l.attributes, l.few_attributes, rfl, hd.legible, hd.sourceFile, hd.className⟩
    have hbytes : l.bytes = [0xCA, 0xFE, 0xBA, 0xBE] ++ (ofNatBE 2 l.minor.toNat ++
        (ofNatBE 2 l.major.toNat ++
        ((ofNatBE 2 l.count.toNat ++ l.constants.flatMap Constant.bytes) ++
        (ofNatBE 2 l.access.toNat ++ (ofNatBE 2 l.thisClass.toNat ++
        (ofNatBE 2 l.superClass.toNat ++
        ((ofNatBE 2 l.interfaceCount.toNat ++ l.interfaces) ++
        ((ofNatBE 2 l.fields.length ++ l.fields.flatMap Member.bytes) ++
        ((ofNatBE 2 l.methods.length ++ l.methods.flatMap Member.bytes) ++
        (ofNatBE 2 l.attributes.length ++ l.attributes.flatMap Attribute.bytes)))))))))) := by
      simp only [Layout.bytes, List.append_assoc]
    rw [hbytes]
    apply Form.andThen_append () rfl
    apply Form.andThen_append () ⟨l.minor, rfl⟩
    apply Form.andThen_append () ⟨l.major, rfl⟩
    apply Form.andThen_append pool ⟨l.count, l.constants, l.filled, rfl, rfl⟩
    apply Form.andThen_append () ⟨l.access, rfl⟩
    apply Form.andThen_append l.thisClass.toNat ⟨l.thisClass, rfl, rfl⟩
    apply Form.andThen_append () ⟨l.superClass, rfl⟩
    exact ⟨l.interfaceCount, l.interfaces, _, l.interfaces_sized,
      ⟨l.fields, _, l.few_fields, ⟨l.methods, _, l.few_methods, hending, rfl⟩, rfl⟩, rfl⟩

end Reader

/-- A class file is read as `h` exactly if it starts with the bytes of a layout that describes
a class with this header; what follows does not matter. -/
theorem parse_eq_ok_iff_layout (b : Bytes) (h : Header) : parse b = .ok h ↔
    ∃ (l : Layout) (rest : Bytes), b = l.bytes ++ rest ∧ l.Describes h := by
  unfold parse
  rw [Reader.parse_eq_ok Reader.recognizes_header]
  constructor
  · intro hw
    obtain ⟨front, rest, ⟨l, rfl, hd⟩, rfl⟩ := hw
    exact ⟨l, rest, rfl, hd⟩
  · intro hw
    obtain ⟨l, rest, rfl, hd⟩ := hw
    exact ⟨l.bytes, rest, ⟨l, rfl, hd⟩, rfl⟩

end JarIndex.ClassFile
