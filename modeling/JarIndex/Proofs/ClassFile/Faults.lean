import JarIndex.Proofs.ClassFile.Acceptance
import JarIndex.Proofs.ClassFile.Refusal

/-!
# What is at fault in a class file

An input is refused for the first thing in it that is wrong: everything in front of
the place of a fault is as it must be. The slots that attributes name are looked up
as the attributes are read, the class's own name after all of them. An input that
ends too early does so in a field whose size is settled by what is in front of it.
-/

set_option autoImplicit false

namespace JarIndex.ClassFile

open Bytes (ofNatBE)

def knownTags : List Nat := [1, 3, 4, 5, 6, 7, 8, 9, 10, 11, 12, 15, 16, 17, 18, 19, 20]

/-- A class file up to its attributes, of which it declares a number. -/
structure Preamble where
  minor : UInt16
  major : UInt16
  count : UInt16
  constants : List Constant
  access : UInt16
  thisClass : UInt16
  superClass : UInt16
  interfaceCount : UInt16
  interfaces : Bytes
  fields : List Member
  methods : List Member
  declared : UInt16
  filled : Fills count.toNat 1 constants
  interfaces_sized : interfaces.length = 2 * interfaceCount.toNat
  few_fields : fields.length < 2 ^ 16
  few_methods : methods.length < 2 ^ 16

namespace Preamble

def opening (minor major count : UInt16) : Bytes :=
  [0xCA, 0xFE, 0xBA, 0xBE] ++ ofNatBE 2 minor.toNat ++ ofNatBE 2 major.toNat ++
    ofNatBE 2 count.toNat

def bytes (p : Preamble) : Bytes :=
  opening p.minor p.major p.count ++ p.constants.flatMap Constant.bytes ++
    ofNatBE 2 p.access.toNat ++ ofNatBE 2 p.thisClass.toNat ++ ofNatBE 2 p.superClass.toNat ++
    ofNatBE 2 p.interfaceCount.toNat ++ p.interfaces ++
    ofNatBE 2 p.fields.length ++ p.fields.flatMap Member.bytes ++
    ofNatBE 2 p.methods.length ++ p.methods.flatMap Member.bytes ++ ofNatBE 2 p.declared.toNat

def slots (p : Preamble) : List Slot := .unusable :: p.constants.flatMap Constant.slots

end Preamble

/-- That there is a preamble, fewer legible attributes than it declares, and then `rest`. -/
def ReachesAttribute (b : Bytes) (p : Preamble) (rest : Bytes) : Prop :=
  ∃ before : List Attribute, before.length < p.declared.toNat ∧
    Attribute.Legible p.slots before ∧ b = p.bytes ++ before.flatMap Attribute.bytes ++ rest

def ReachesEnd (b : Bytes) (p : Preamble) : Prop :=
  ∃ (all : List Attribute) (rest : Bytes), all.length = p.declared.toNat ∧
    Attribute.Legible p.slots all ∧ b = p.bytes ++ all.flatMap Attribute.bytes ++ rest

/-- What is wrong with a slot whose text is wanted: it holds none, or one that does not decode. -/
inductive Untold (slots : List Slot) (i : Nat) : DecodeError → Prop where
  | textless (absent : ∀ content, slots[i]? ≠ some (.text content)) :
      Untold slots i (.wrongSlot i)
  | malformed {content : Bytes} (present : slots[i]? = some (.text content))
      (undecodable : ModifiedUtf8.decode content = none) : Untold slots i (.malformedText i)

/-- What is wrong with an attribute whose name and length can be read: its name is no text, or it
is a source file attribute of another length than two, or with a value that is not told. -/
inductive Misstated (slots : List Slot) : Bytes → DecodeError → Prop where
  | name {name : UInt16} {length : Nat} {content : Bytes} (short : length < 2 ^ 32)
      (nameless : ∀ text, slots[name.toNat]? ≠ some (.text text)) :
      Misstated slots (ofNatBE 2 name.toNat ++ ofNatBE 4 length ++ content)
        (.wrongSlot name.toNat)
  | length {name : UInt16} {length : Nat} {content : Bytes} (short : length < 2 ^ 32)
      (source : slots[name.toNat]? = some (.text sourceFileName)) (other : length ≠ 2) :
      Misstated slots (ofNatBE 2 name.toNat ++ ofNatBE 4 length ++ content)
        (.malformedSourceFile length)
  | value {name value : UInt16} {rest : Bytes} {e : DecodeError}
      (source : slots[name.toNat]? = some (.text sourceFileName))
      (untold : Untold slots value.toNat e) :
      Misstated slots (ofNatBE 2 name.toNat ++ ofNatBE 4 2 ++ (ofNatBE 2 value.toNat ++ rest)) e

/-- What is wrong with the slot of the class itself: it names no class, or the name is not told. -/
inductive Unnamed (slots : List Slot) (i : Nat) : DecodeError → Prop where
  | classless (absent : ∀ name, slots[i]? ≠ some (.classNamed name)) :
      Unnamed slots i (.wrongSlot i)
  | untold {name : Nat} {e : DecodeError} (present : slots[i]? = some (.classNamed name))
      (untold : Untold slots name e) : Unnamed slots i e

/-- What is at fault in an input, with everything in front of it as it must be. -/
inductive Fault (b : Bytes) : DecodeError → Prop where
  | magic (present : 4 ≤ b.length) (other : Bytes.bigEndian (b.take 4) ≠ magic) :
      Fault b (.wrongMagic (Bytes.bigEndian (b.take 4)))
  | tag {minor major count : UInt16} {before : List Constant} {tag : UInt8} {rest : Bytes}
      (place : b = Preamble.opening minor major count ++ before.flatMap Constant.bytes ++
        tag :: rest)
      (needed : 1 + (before.flatMap Constant.slots).length < count.toNat)
      (unknown : tag.toNat ∉ knownTags) :
      Fault b (.unknownTag tag.toNat (1 + (before.flatMap Constant.slots).length))
  | misstated {p : Preamble} {rest : Bytes} {e : DecodeError} (place : ReachesAttribute b p rest)
      (wrong : Misstated p.slots rest e) : Fault b e
  | unnamed {p : Preamble} {e : DecodeError} (place : ReachesEnd b p)
      (wrong : Unnamed p.slots p.thisClass.toNat e) : Fault b e

namespace Reader

section Constants

theorem mem_knownTags {tag : Nat} : tag ∈ knownTags ↔
    tag = 1 ∨ tag = 7 ∨ (tag = 5 ∨ tag = 6) ∨ ∃ n, ConstantPool.payloadSize tag = some n := by
  simp only [payloadSize_eq_some, knownTags, otherSizes, List.mem_cons, Prod.mk.injEq,
    List.not_mem_nil, or_false, exists_or, exists_eq_right]
  omega

def UnknownTag (slot : Nat) : Form DecodeError := fun bs e => ∃ (tag : UInt8) (rest : Bytes),
  bs = tag :: rest ∧ tag.toNat ∉ knownTags ∧ e = .unknownTag tag.toNat slot

theorem refuses_known {α : Type} {r : Reader α} {tag slot : Nat} (h : tag ∈ knownTags)
    (hr : Refuses r .none) :
    Refuses r (fun _ e => tag ∉ knownTags ∧ e = .unknownTag tag slot) :=
  refuses_congr hr fun bs e => by simp [Form.none, h]

theorem refuses_constant (slot : Nat) :
    Refuses (ConstantPool.constant slot) (UnknownTag slot) := by
  have hr : Refuses (ConstantPool.constant slot)
      (Form.andThen (fun bs v => v < 256 ∧ bs = ofNatBE 1 v)
        (fun tag _ e => tag ∉ knownTags ∧ e = .unknownTag tag slot)) := by
    apply refuses_behind recognizes_u1 (faultless_number 1)
    intro tag
    by_cases h1 : tag = 1
    · simp only [h1, if_true]
      apply refuses_known (by decide)
      exact faultless_bind recognizes_count (faultless_number 2) fun length =>
        faultless_bind (recognizes_bytes length) (refuses_bytes length) fun bs =>
        refuses_pure (Slot.text bs)
    by_cases h7 : tag = 7
    · simp only [h7, if_true]
      apply refuses_known (by decide)
      exact faultless_bind recognizes_u2 (faultless_number 2) fun name =>
        refuses_pure (Slot.classNamed name)
    by_cases hw : tag = 5 ∨ tag = 6
    · simp only [h1, h7, hw, if_false, if_true]
      apply refuses_known (mem_knownTags.mpr (by simp [hw]))
      exact faultless_bind (recognizes_skip 8) (faultless_skip 8) fun _ => refuses_pure Slot.wide
    simp only [h1, h7, hw, if_false]
    split
    · rename_i n hn
      apply refuses_known (mem_knownTags.mpr (by simp [hn]))
      exact faultless_bind (recognizes_skip n) (faultless_skip n) fun _ => refuses_pure Slot.other
    · rename_i hn
      apply refuses_congr (refuses_fail (by simp))
      intro bs e
      simp [mem_knownTags, h1, h7, hw, hn]
  apply refuses_congr hr
  intro bs e
  constructor
  · intro h
    obtain ⟨tag, _, rest, ⟨hlt, rfl⟩, ⟨hn, rfl⟩, rfl⟩ := h
    have ht : (UInt8.ofNat tag).toNat = tag := by
      rw [UInt8.toNat_ofNat']
      omega
    refine ⟨UInt8.ofNat tag, rest, rfl, ?_, ?_⟩
    · rwa [ht]
    · rw [ht]
  · intro h
    obtain ⟨tag, rest, rfl, hn, rfl⟩ := h
    refine ⟨tag.toNat, [tag], rest, ⟨tag.toNat_lt, ?_⟩, ⟨hn, rfl⟩, rfl⟩
    simp [ofNatBE]

/-- A tag that is not known, behind some constants for the slots from `next` on. -/
def Unfillable (count next : Nat) : Form DecodeError := fun bs e =>
  ∃ (before : List Constant) (back : Bytes), bs = before.flatMap Constant.bytes ++ back ∧
    next + (before.flatMap Constant.slots).length < count ∧
    UnknownTag (next + (before.flatMap Constant.slots).length) back e

theorem refuses_fill (count : Nat) (pool : ConstantPool) :
    Refuses (ConstantPool.fill count pool) (Unfillable count pool.size) := by
  induction pool using ConstantPool.fill.induct count with
  | case1 pool hlt ih =>
    rw [ConstantPool.fill, if_pos hlt]
    apply refuses_congr (refuses_bind (recognizes_constant pool.size)
      (refuses_constant pool.size) ih)
    intro bs e
    constructor
    · intro h
      rcases h with h | ⟨_, _, _, ⟨k, rfl, rfl⟩, ⟨before, back, rfl, hn, h⟩, rfl⟩
      · exact ⟨[], bs, rfl, hlt, h⟩
      · rw [size_add] at hn h
        refine ⟨k :: before, back, by simp, ?_, ?_⟩
        · simpa [Nat.add_assoc] using hn
        · simpa [Nat.add_assoc] using h
    · intro h
      obtain ⟨before, back, rfl, hn, h⟩ := h
      cases before with
      | nil => exact Or.inl h
      | cons k before =>
        refine Or.inr ⟨k.slot, k.bytes, _, ⟨k, rfl, rfl⟩, ⟨before, back, rfl, ?_, ?_⟩, by simp⟩
        · rw [size_add]
          simpa [Nat.add_assoc] using hn
        · rw [size_add]
          simpa [Nat.add_assoc] using h
  | case2 pool hge =>
    rw [ConstantPool.fill, if_neg hge]
    apply refuses_congr (refuses_pure pool)
    intro bs e
    constructor
    · exact False.elim
    · intro h
      obtain ⟨before, back, rfl, hn, -⟩ := h
      omega

theorem refuses_pool : Refuses ConstantPool.read (fun bs e => ∃ (count : UInt16) (back : Bytes),
    bs = ofNatBE 2 count.toNat ++ back ∧ Unfillable count.toNat 1 back e) := by
  apply refuses_congr (refuses_behind recognizes_u2 (faultless_number 2) fun count =>
    refuses_fill count _)
  intro bs e
  constructor
  · intro h
    obtain ⟨_, _, back, ⟨count, rfl, rfl⟩, h, rfl⟩ := h
    exact ⟨count, back, rfl, h⟩
  · intro h
    obtain ⟨count, back, rfl, h⟩ := h
    exact ⟨_, _, back, ⟨count, rfl, rfl⟩, h, rfl⟩

end Constants

section Lookups

variable {pool : ConstantPool} {i : Nat} {e : DecodeError}

theorem textBytes_eq_error : pool.textBytes i = .error e ↔
    (∀ content, pool.toList[i]? ≠ some (.text content)) ∧ e = .wrongSlot i := by
  rw [Array.getElem?_toList]
  unfold ConstantPool.textBytes
  split
  · rename_i bs hi
    simp [hi]
  · rename_i hi
    simp only [Except.error.injEq, eq_comm (a := e)]
    exact ⟨fun h => ⟨hi, h⟩, And.right⟩

theorem text_eq_error : pool.text i = .error e ↔ Untold pool.toList i e := by
  have hu : Untold pool.toList i e ↔ pool.textBytes i = .error e ∨
      ∃ content, pool.textBytes i = .ok content ∧ ModifiedUtf8.decode content = none ∧
        e = .malformedText i := by
    simp only [textBytes_eq_error, textBytes_eq_ok]
    constructor
    · intro h
      cases h with
      | textless absent => exact Or.inl ⟨absent, rfl⟩
      | malformed present undecodable => exact Or.inr ⟨_, present, undecodable, rfl⟩
    · intro h
      rcases h with ⟨absent, rfl⟩ | ⟨content, present, undecodable, rfl⟩
      · exact .textless absent
      · exact .malformed present undecodable
  rw [hu]
  unfold ConstantPool.text
  cases hb : pool.textBytes i with
  | error e' => simp [bind, Except.bind]
  | ok content =>
    cases hd : ModifiedUtf8.decode content with
    | none => simp [bind, Except.bind, hd, throw, throwThe, MonadExceptOf.throw, eq_comm]
    | some s => simp [bind, Except.bind, hd, pure, Except.pure]

theorem className_eq_error : pool.className i = .error e ↔ Unnamed pool.toList i e := by
  unfold ConstantPool.className
  split
  · rename_i name hi
    rw [← Array.getElem?_toList] at hi
    rw [text_eq_error]
    constructor
    · exact .untold hi
    · intro h
      cases h with
      | classless absent => exact absurd hi (absent name)
      | untold present untold =>
        cases hi.symm.trans present
        exact untold
  · rename_i hi
    rw [← Array.getElem?_toList] at hi
    rw [Except.error.injEq]
    constructor
    · rintro rfl
      exact .classless hi
    · intro h
      cases h with
      | classless absent => rfl
      | untold present untold => exact absurd present (hi _)

end Lookups

section Attributes

/-- What is at fault behind the length of an attribute whose name has the bytes `text`. -/
def Misread (slots : List Slot) (text : Bytes) (length : Nat) : Form DecodeError := fun bs e =>
  text = sourceFileName ∧ ((length ≠ 2 ∧ e = .malformedSourceFile length) ∨
    (length = 2 ∧ ∃ (value : UInt16) (rest : Bytes), bs = ofNatBE 2 value.toNat ++ rest ∧
      Untold slots value.toNat e))

theorem refuses_value (pool : ConstantPool) :
    Refuses (do let value ← u2; return some (← pool.text value))
      (fun bs e => ∃ (value : UInt16) (rest : Bytes), bs = ofNatBE 2 value.toNat ++ rest ∧
        Untold pool.toList value.toNat e) := by
  apply refuses_congr (refuses_behind recognizes_u2 (faultless_number 2) fun value =>
    refuses_bind (recognizes_lift (pool.text value))
      (refuses_lift _ (not_breaksOff_text pool value)) fun s => refuses_pure (some s))
  intro bs e
  constructor
  · intro h
    obtain ⟨_, _, rest, ⟨value, rfl, rfl⟩, h | ⟨_, _, _, -, h, -⟩, rfl⟩ := h
    · exact ⟨value, rest, rfl, text_eq_error.mp h⟩
    · exact h.elim
  · intro h
    obtain ⟨value, rest, rfl, h⟩ := h
    exact ⟨_, _, rest, ⟨value, rfl, rfl⟩, Or.inl (text_eq_error.mpr h), rfl⟩

theorem refuses_content (pool : ConstantPool) (text : Bytes) (length : Nat)
    (before : Option String) :
    Refuses (if text ≠ sourceFileName then do
        skip length
        return before
      else if length ≠ 2 then fail (.malformedSourceFile length)
      else do
        let value ← u2
        return some (← pool.text value)) (Misread pool.toList text length) := by
  by_cases ht : text = sourceFileName
  · rw [if_neg (not_not.mpr ht)]
    by_cases hl : length = 2
    · rw [if_neg (not_not.mpr hl)]
      apply refuses_congr (refuses_value pool)
      intro bs e
      simp [Misread, ht, hl]
    · rw [if_pos hl]
      apply refuses_congr (refuses_fail (by simp))
      intro bs e
      simp [Misread, ht, hl]
  · rw [if_pos ht]
    apply refuses_congr (faultless_bind (recognizes_skip length) (faultless_skip length)
      fun _ => refuses_pure before)
    intro bs e
    simp [Misread, ht, Form.none]

theorem misstated_iff {slots : List Slot} {bs : Bytes} {e : DecodeError} : Misstated slots bs e ↔
    ∃ (name : UInt16) (length : Nat) (content : Bytes), length < 2 ^ 32 ∧
      bs = ofNatBE 2 name.toNat ++ ofNatBE 4 length ++ content ∧
      (((∀ text, slots[name.toNat]? ≠ some (.text text)) ∧ e = .wrongSlot name.toNat) ∨
        ∃ text, slots[name.toNat]? = some (.text text) ∧ Misread slots text length content e) := by
  constructor
  · intro h
    cases h with
    | name short nameless => exact ⟨_, _, _, short, rfl, Or.inl ⟨nameless, rfl⟩⟩
    | length short source other =>
      exact ⟨_, _, _, short, rfl, Or.inr ⟨_, source, rfl, Or.inl ⟨other, rfl⟩⟩⟩
    | value source untold =>
      exact ⟨_, 2, _, by decide, rfl, Or.inr ⟨_, source, rfl, Or.inr ⟨rfl, _, _, rfl, untold⟩⟩⟩
  · intro h
    obtain ⟨name, length, content, short, rfl, ⟨nameless, rfl⟩ | ⟨_, source, rfl, h⟩⟩ := h
    · exact .name short nameless
    · rcases h with ⟨other, rfl⟩ | ⟨rfl, value, rest, rfl, untold⟩
      · exact .length short source other
      · exact .value source untold

theorem refuses_classAttribute (pool : ConstantPool) (before : Option String) :
    Refuses (classAttribute pool before) (Misstated pool.toList) := by
  apply refuses_congr (refuses_behind recognizes_u2 (faultless_number 2) fun name =>
    refuses_behind recognizes_length (faultless_number 4) fun length =>
    refuses_bind (recognizes_lift (pool.textBytes name))
      (refuses_lift _ (not_breaksOff_textBytes pool name)) fun text =>
    refuses_content pool text length before)
  intro bs e
  rw [misstated_iff]
  constructor
  · intro h
    obtain ⟨_, _, _, ⟨name, rfl, rfl⟩, ⟨length, _, content, ⟨hl, rfl⟩,
      h | ⟨text, _, _, ⟨rfl, ht⟩, h, rfl⟩, rfl⟩, rfl⟩ := h
    · exact ⟨name, length, content, hl, by simp, Or.inl (textBytes_eq_error.mp h)⟩
    · exact ⟨name, length, _, hl, by simp, Or.inr ⟨text, textBytes_eq_ok.mp ht, h⟩⟩
  · intro h
    obtain ⟨name, length, content, hl, rfl, h⟩ := h
    refine ⟨_, _, _, ⟨name, rfl, rfl⟩, ⟨length, _, content, ⟨hl, rfl⟩, ?_, rfl⟩, by simp⟩
    rcases h with h | ⟨text, ht, h⟩
    · exact Or.inl (textBytes_eq_error.mpr h)
    · exact Or.inr ⟨text, [], content, ⟨rfl, textBytes_eq_ok.mpr ht⟩, h, rfl⟩

theorem refuses_classAttributes (pool : ConstantPool) (n : Nat) (sourceFile : Option String) :
    Refuses (classAttributes pool n sourceFile) (fun bs e =>
      ∃ (before : List Attribute) (rest : Bytes), before.length < n ∧
        Attribute.Legible pool.toList before ∧ bs = before.flatMap Attribute.bytes ++ rest ∧
        Misstated pool.toList rest e) := by
  induction n generalizing sourceFile with
  | zero =>
    apply refuses_congr (refuses_pure sourceFile)
    intro bs e
    simp [Form.none]
  | succ n ih =>
    apply refuses_congr (refuses_bind (recognizes_classAttribute pool sourceFile)
      (refuses_classAttribute pool sourceFile) ih)
    intro bs e
    constructor
    · intro h
      rcases h with h | ⟨_, _, _, ⟨a, rfl, hn, hu⟩, ⟨before, rest, hl, hlegible, rfl, h⟩, rfl⟩
      · exact ⟨[], bs, by simp, Attribute.legible_nil, rfl, h⟩
      · exact ⟨a :: before, rest, by simpa using hl,
          Attribute.legible_cons.mpr ⟨hn, told_of_updates hu, hlegible⟩, by simp, h⟩
    · intro h
      obtain ⟨before, rest, hl, hlegible, rfl, h⟩ := h
      cases before with
      | nil => exact Or.inl h
      | cons a before =>
        obtain ⟨hn, ht, hlegible⟩ := Attribute.legible_cons.mp hlegible
        obtain ⟨after, hu⟩ := exists_updates sourceFile ht
        exact Or.inr ⟨after, a.bytes, _, ⟨a, rfl, hn, hu⟩,
          ⟨before, rest, by simpa using hl, hlegible, rfl, h⟩, by simp⟩

end Attributes

end Reader

end JarIndex.ClassFile
