import JarIndex.Proofs.ClassFile.Faults

/-!
# The errors of a class file

Reading fails exactly for what is at fault, or for a field that the input is too
short for. Members are never at fault, so what is left are the magic number, the
tags of the constants, the attributes and the name of the class.
-/

set_option autoImplicit false

namespace JarIndex.ClassFile

open Bytes (ofNatBE)

namespace Reader

theorem refuses_expectMagic : Refuses expectMagic (fun bs e => 4 ≤ bs.length ∧
    Bytes.bigEndian (bs.take 4) ≠ magic ∧ e = .wrongMagic (Bytes.bigEndian (bs.take 4))) := by
  have hc : ∀ found : Nat, Refuses (if found ≠ magic then fail (.wrongMagic found) else pure ())
      (fun _ e => found ≠ magic ∧ e = .wrongMagic found) := by
    intro found
    by_cases h : found = magic
    · rw [if_neg (not_not.mpr h)]
      apply refuses_congr (refuses_pure ())
      intro bs e
      simp [Form.none, h]
    · rw [if_pos h]
      apply refuses_congr (refuses_fail (by simp))
      intro bs e
      simp [h]
  apply refuses_congr (refuses_behind recognizes_length (faultless_number 4) hc)
  intro bs e
  constructor
  · intro h
    obtain ⟨found, _, rest, ⟨hf, rfl⟩, h, rfl⟩ := h
    have ht : (ofNatBE 4 found ++ rest).take 4 = ofNatBE 4 found := by simp
    rw [ht, Bytes.bigEndian_ofNatBE 4 found hf]
    exact ⟨by simp, h⟩
  · intro h
    obtain ⟨hl, h⟩ := h
    have ht : (bs.take 4).length = 4 := by simp [hl]
    refine ⟨_, bs.take 4, bs.drop 4, ⟨?_, ?_⟩, h, (List.take_append_drop 4 bs).symm⟩
    · simpa [ht] using Bytes.bigEndian_lt (bs.take 4)
    · simpa [ht] using (Bytes.ofNatBE_bigEndian (bs.take 4)).symm

theorem faultless_skipAttribute : Refuses skipAttribute .none :=
  faultless_bind (recognizes_skip 2) (faultless_skip 2) fun _ =>
    faultless_bind recognizes_length (faultless_number 4) faultless_skip

theorem faultless_skipMember : Refuses skipMember .none :=
  faultless_bind (recognizes_skip 2) (faultless_skip 2) fun _ =>
    faultless_bind (recognizes_skip 2) (faultless_skip 2) fun _ =>
    faultless_bind (recognizes_skip 2) (faultless_skip 2) fun _ =>
    faultless_bind recognizes_count (faultless_number 2)
      (faultless_times recognizes_skipAttribute faultless_skipAttribute)

theorem refuses_members_then {α : Type} {r : Reader α} {fault : Form DecodeError}
    (hr : Refuses r fault) : Refuses (do
      let count ← u2
      times skipMember count
      r) (fun bs e => ∃ (ms : List Member) (back : Bytes), ms.length < 2 ^ 16 ∧ fault back e ∧
        bs = ofNatBE 2 ms.length ++ ms.flatMap Member.bytes ++ back) := by
  apply refuses_congr (refuses_behind recognizes_count (faultless_number 2) fun count =>
    refuses_behind (recognizes_members count)
      (faultless_times recognizes_skipMember faultless_skipMember count) fun _ => hr)
  intro bs e
  constructor
  · intro h
    obtain ⟨_, _, _, ⟨hfew, rfl⟩, ⟨_, _, back, ⟨ms, rfl, rfl⟩, hback, rfl⟩, rfl⟩ := h
    exact ⟨ms, back, hfew, hback, by rw [List.append_assoc]⟩
  · intro h
    obtain ⟨ms, back, hfew, hback, rfl⟩ := h
    exact ⟨_, _, _, ⟨hfew, rfl⟩, ⟨(), _, back, ⟨ms, rfl, rfl⟩, hback, rfl⟩,
      by rw [List.append_assoc]⟩

theorem refuses_interfaces_then {α : Type} {r : Reader α} {fault : Form DecodeError}
    (hr : Refuses r fault) : Refuses (do
      let count ← u2
      skip (2 * count)
      r) (fun bs e => ∃ (count : UInt16) (interfaces back : Bytes),
        interfaces.length = 2 * count.toNat ∧ fault back e ∧
        bs = ofNatBE 2 count.toNat ++ interfaces ++ back) := by
  apply refuses_congr (refuses_behind recognizes_u2 (faultless_number 2) fun count =>
    refuses_behind (recognizes_skip (2 * count)) (faultless_skip (2 * count)) fun _ => hr)
  intro bs e
  constructor
  · intro h
    obtain ⟨_, _, _, ⟨count, rfl, rfl⟩, ⟨_, interfaces, back, hi, hback, rfl⟩, rfl⟩ := h
    exact ⟨count, interfaces, back, hi, hback, by rw [List.append_assoc]⟩
  · intro h
    obtain ⟨count, interfaces, back, hi, hback, rfl⟩ := h
    exact ⟨_, _, _, ⟨count, rfl, rfl⟩, ⟨(), interfaces, back, hi, hback, rfl⟩,
      by rw [List.append_assoc]⟩

/-- What is at fault behind the number of the attributes. -/
def Closing (slots : List Slot) (thisClass declared : Nat) : Form DecodeError := fun bs e =>
  (∃ (before : List Attribute) (rest : Bytes), before.length < declared ∧
    Attribute.Legible slots before ∧ bs = before.flatMap Attribute.bytes ++ rest ∧
    Misstated slots rest e) ∨
  ∃ (all : List Attribute) (rest : Bytes), all.length = declared ∧
    Attribute.Legible slots all ∧ bs = all.flatMap Attribute.bytes ++ rest ∧
    Unnamed slots thisClass e

theorem exists_outcome {slots : List Slot} {as : List Attribute}
    (h : Attribute.Legible slots as) (before : Option String) :
    ∃ after, Outcome slots as before after := by
  induction as generalizing before with
  | nil => exact ⟨before, outcome_nil.mpr rfl⟩
  | cons a as ih =>
    obtain ⟨-, ht, hrest⟩ := Attribute.legible_cons.mp h
    obtain ⟨middle, hu⟩ := exists_updates before ht
    obtain ⟨after, ho⟩ := ih hrest middle
    exact ⟨after, (outcome_cons hu).mpr ho⟩

theorem refuses_closing (pool : ConstantPool) (thisClass declared : Nat) :
    Refuses (do
      let sourceFile ← classAttributes pool declared none
      let name ← pool.className thisClass
      return (⟨dotted name, sourceFile⟩ : Header)) (Closing pool.toList thisClass declared) := by
  apply refuses_congr (refuses_bind (recognizes_classAttributes pool declared none)
    (refuses_classAttributes pool declared none) fun sourceFile =>
    refuses_bind (recognizes_lift (pool.className thisClass))
      (refuses_lift _ (not_breaksOff_className pool thisClass)) fun name =>
    refuses_pure (⟨dotted name, sourceFile⟩ : Header))
  intro bs e
  apply or_congr_right
  constructor
  · intro h
    obtain ⟨_, _, rest, ⟨all, hl, rfl, hlegible, -⟩, h | ⟨_, _, _, -, h, -⟩, rfl⟩ := h
    · exact ⟨all, rest, hl, hlegible, rfl, className_eq_error.mp h⟩
    · exact h.elim
  · intro h
    obtain ⟨all, rest, hl, hlegible, rfl, h⟩ := h
    obtain ⟨after, ho⟩ := exists_outcome hlegible none
    exact ⟨after, _, rest, ⟨all, hl, rfl, hlegible, ho⟩, Or.inl (className_eq_error.mpr h), rfl⟩

theorem refuses_ending (pool : ConstantPool) (thisClass : Nat) :
    Refuses (do
      let attributes ← u2
      let sourceFile ← classAttributes pool attributes none
      let name ← pool.className thisClass
      return (⟨dotted name, sourceFile⟩ : Header)) (fun bs e =>
        ∃ (declared : UInt16) (rest : Bytes), bs = ofNatBE 2 declared.toNat ++ rest ∧
          Closing pool.toList thisClass declared.toNat rest e) := by
  apply refuses_congr (refuses_behind recognizes_u2 (faultless_number 2) fun declared =>
    refuses_closing pool thisClass declared)
  intro bs e
  constructor
  · intro h
    obtain ⟨_, _, rest, ⟨declared, rfl, rfl⟩, h, rfl⟩ := h
    exact ⟨declared, rest, rfl, h⟩
  · intro h
    obtain ⟨declared, rest, rfl, h⟩ := h
    exact ⟨_, _, rest, ⟨declared, rfl, rfl⟩, h, rfl⟩

theorem fault_iff {b : Bytes} {e : DecodeError} : Fault b e ↔
    (4 ≤ b.length ∧ Bytes.bigEndian (b.take 4) ≠ magic ∧
      e = .wrongMagic (Bytes.bigEndian (b.take 4))) ∨
    (∃ (minor major count : UInt16) (back : Bytes),
      b = Preamble.opening minor major count ++ back ∧ Unfillable count.toNat 1 back e) ∨
    ∃ (p : Preamble) (rest : Bytes), b = p.bytes ++ rest ∧
      Closing p.slots p.thisClass.toNat p.declared.toNat rest e := by
  constructor
  · intro h
    cases h with
    | magic present other => exact Or.inl ⟨present, other, rfl⟩
    | @tag minor major count before tag rest place needed unknown =>
      refine Or.inr (Or.inl ⟨minor, major, count, _, ?_, before, tag :: rest, rfl, needed, tag,
        rest, rfl, unknown, rfl⟩)
      rw [place, List.append_assoc]
    | @misstated p rest e place wrong =>
      obtain ⟨before, hl, hlegible, rfl⟩ := place
      exact Or.inr (Or.inr ⟨p, _, List.append_assoc _ _ _,
        Or.inl ⟨before, rest, hl, hlegible, rfl, wrong⟩⟩)
    | @unnamed p e place wrong =>
      obtain ⟨all, rest, hl, hlegible, rfl⟩ := place
      exact Or.inr (Or.inr ⟨p, _, List.append_assoc _ _ _,
        Or.inr ⟨all, rest, hl, hlegible, rfl, wrong⟩⟩)
  · intro h
    rcases h with ⟨present, other, rfl⟩ | ⟨minor, major, count, _, rfl, before, _, rfl, needed,
      tag, rest, rfl, unknown, rfl⟩ | ⟨p, _, rfl, ⟨before, rest, hl, hlegible, rfl, h⟩ |
      ⟨all, rest, hl, hlegible, rfl, h⟩⟩
    · exact .magic present other
    · exact .tag (by rw [List.append_assoc]) needed unknown
    · exact .misstated ⟨before, hl, hlegible, by rw [List.append_assoc]⟩ h
    · exact .unnamed ⟨all, rest, hl, hlegible, by rw [List.append_assoc]⟩ h

theorem refuses_header : Refuses header Fault := by
  apply refuses_congr (refuses_bind recognizes_expectMagic refuses_expectMagic fun _ =>
    refuses_behind recognizes_skip_u2 (faultless_skip 2) fun _ =>
    refuses_behind recognizes_skip_u2 (faultless_skip 2) fun _ =>
    refuses_bind recognizes_pool refuses_pool fun pool =>
    refuses_behind recognizes_skip_u2 (faultless_skip 2) fun _ =>
    refuses_behind recognizes_u2 (faultless_number 2) fun thisClass =>
    refuses_behind recognizes_skip_u2 (faultless_skip 2) fun _ =>
    refuses_interfaces_then (refuses_members_then (refuses_members_then
      (refuses_ending pool thisClass))))
  intro b e
  rw [fault_iff]
  apply or_congr_right
  constructor
  · intro h
    obtain ⟨_, _, _, rfl, h, rfl⟩ := h
    obtain ⟨_, _, _, ⟨minor, rfl⟩, h, rfl⟩ := h
    obtain ⟨_, _, _, ⟨major, rfl⟩, h, rfl⟩ := h
    rcases h with ⟨count, back, rfl, h⟩ | h
    · exact Or.inl ⟨minor, major, count, back, by simp [Preamble.opening], h⟩
    obtain ⟨pool, _, _, ⟨count, ks, hfills, rfl, hpool⟩, h, rfl⟩ := h
    obtain ⟨_, _, _, ⟨access, rfl⟩, h, rfl⟩ := h
    obtain ⟨_, _, _, ⟨thisClass, rfl, rfl⟩, h, rfl⟩ := h
    obtain ⟨_, _, _, ⟨superClass, rfl⟩, h, rfl⟩ := h
    obtain ⟨interfaceCount, interfaces, _, hinterfaces, h, rfl⟩ := h
    obtain ⟨fields, _, hfields, h, rfl⟩ := h
    obtain ⟨methods, _, hmethods, h, rfl⟩ := h
    obtain ⟨declared, rest, rfl, h⟩ := h
    rw [hpool] at h
    refine Or.inr ⟨⟨minor, major, count, ks, access, thisClass, superClass, interfaceCount,
      interfaces, fields, methods, declared, hfills, hinterfaces, hfields, hmethods⟩, rest, ?_, h⟩
    simp only [Preamble.bytes, Preamble.opening, List.append_assoc]
  · intro h
    rcases h with ⟨minor, major, count, back, rfl, h⟩ | ⟨p, rest, rfl, h⟩
    · have hbytes : Preamble.opening minor major count ++ back = [0xCA, 0xFE, 0xBA, 0xBE] ++
          (ofNatBE 2 minor.toNat ++ (ofNatBE 2 major.toNat ++
          (ofNatBE 2 count.toNat ++ back))) := by
        simp only [Preamble.opening, List.append_assoc]
      rw [hbytes]
      apply Form.andThen_append () rfl
      apply Form.andThen_append () ⟨minor, rfl⟩
      apply Form.andThen_append () ⟨major, rfl⟩
      exact Or.inl ⟨count, back, rfl, h⟩
    · have hbytes : p.bytes ++ rest = [0xCA, 0xFE, 0xBA, 0xBE] ++ (ofNatBE 2 p.minor.toNat ++
          (ofNatBE 2 p.major.toNat ++
          ((ofNatBE 2 p.count.toNat ++ p.constants.flatMap Constant.bytes) ++
          (ofNatBE 2 p.access.toNat ++ (ofNatBE 2 p.thisClass.toNat ++
          (ofNatBE 2 p.superClass.toNat ++
          ((ofNatBE 2 p.interfaceCount.toNat ++ p.interfaces) ++
          ((ofNatBE 2 p.fields.length ++ p.fields.flatMap Member.bytes) ++
          ((ofNatBE 2 p.methods.length ++ p.methods.flatMap Member.bytes) ++
          (ofNatBE 2 p.declared.toNat ++ rest)))))))))) := by
        simp only [Preamble.bytes, Preamble.opening, List.append_assoc]
      rw [hbytes]
      apply Form.andThen_append () rfl
      apply Form.andThen_append () ⟨p.minor, rfl⟩
      apply Form.andThen_append () ⟨p.major, rfl⟩
      apply Or.inr
      apply Form.andThen_append (p.slots.toArray : ConstantPool)
        ⟨p.count, p.constants, p.filled, rfl, rfl⟩
      apply Form.andThen_append () ⟨p.access, rfl⟩
      apply Form.andThen_append p.thisClass.toNat ⟨p.thisClass, rfl, rfl⟩
      apply Form.andThen_append () ⟨p.superClass, rfl⟩
      exact ⟨p.interfaceCount, p.interfaces, _, p.interfaces_sized,
        ⟨p.fields, _, p.few_fields, ⟨p.methods, _, p.few_methods,
          ⟨p.declared, rest, rfl, h⟩, rfl⟩, rfl⟩, rfl⟩

theorem parse_eq_error {α : Type} {r : Reader α} {b : Bytes} {e : DecodeError} :
    r.parse b = .error e ↔ r ⟨0, b⟩ = .error e := by
  unfold parse
  cases r ⟨0, b⟩ <;> simp [Except.map]

end Reader

theorem Untold.final {slots : List Slot} {i : Nat} {e : DecodeError} (h : Untold slots i e)
    (o : Nat) : e ≠ .unexpectedEnd o := by
  cases h <;> simp

theorem Fault.final {b : Bytes} {e : DecodeError} (h : Fault b e) (o : Nat) :
    e ≠ .unexpectedEnd o := by
  cases h with
  | magic | tag => simp
  | misstated place wrong =>
    cases wrong with
    | name | length => simp
    | value source untold => exact untold.final o
  | unnamed place wrong =>
    cases wrong with
    | classless => simp
    | untold present untold => exact untold.final o

/-- That the input ends within a field: what is in front of it settles that a number of bytes is
due there, whatever they are, and there are fewer. -/
def EndsEarly (b : Bytes) (e : DecodeError) : Prop := ∃ (front back : Bytes) (n : Nat),
  b = front ++ back ∧ e = .unexpectedEnd front.length ∧ back.length < n ∧
    ∀ back' : Bytes, parse (front ++ back') = .error (.unexpectedEnd front.length) ↔
      back'.length < n

/-- An input is refused with an error exactly if the error tells what is at fault in it, with
everything in front of the fault as it must be, or in which field the input ends. -/
theorem parse_eq_error_iff (b : Bytes) (e : DecodeError) :
    parse b = .error e ↔ Fault b e ∨ EndsEarly b e := by
  have hr := Reader.refuses_header
  constructor
  · intro h
    rw [parse, Reader.parse_eq_error] at h
    by_cases he : ∃ o, e = .unexpectedEnd o
    · obtain ⟨o, rfl⟩ := he
      obtain ⟨front, back, n, hb, rfl, howes⟩ := hr.owes _ o h
      simp only at hb howes
      subst hb
      rw [Nat.zero_add] at *
      refine Or.inr ⟨front, back, n, rfl, rfl, (howes back).mp (by rwa [Nat.zero_add]), ?_⟩
      intro back'
      rw [parse, Reader.parse_eq_error, ← howes back', Nat.zero_add]
    · simp only [not_exists] at he
      exact Or.inl ((hr.cause _ e he).mp h)
  · intro h
    rcases h with h | ⟨front, back, n, rfl, rfl, hlt, hdue⟩
    · rw [parse, Reader.parse_eq_error]
      exact (hr.cause ⟨0, b⟩ e h.final).mpr h
    · exact (hdue back).mpr hlt

end JarIndex.ClassFile
