import JarIndex.Proofs.ClassFile.Layout
import JarIndex.Proofs.ClassFile.Recognition

/-!
# Numbers, members and their attributes

What the readers of the opaque parts of a class file recognize. The attributes of
a member are passed over, whatever they hold.
-/

set_option autoImplicit false

namespace JarIndex.ClassFile.Reader

open Bytes (ofNatBE)

theorem recognizes_u1 :
    Recognizes u1 (fun bs v => v < 256 ∧ bs = ofNatBE 1 v) := recognizes_number 1

theorem recognizes_u2 :
    Recognizes u2 (fun bs v => ∃ x : UInt16, v = x.toNat ∧ bs = ofNatBE 2 x.toNat) := by
  apply recognizes_congr (recognizes_number 2)
  intro bs v
  constructor
  · intro h
    obtain ⟨hv, rfl⟩ := h
    exact ⟨UInt16.ofNatLT v hv, by simp, by simp⟩
  · intro h
    obtain ⟨x, rfl, rfl⟩ := h
    exact ⟨x.toNat_lt, rfl⟩

theorem recognizes_count :
    Recognizes u2 (fun bs v => v < 2 ^ 16 ∧ bs = ofNatBE 2 v) := recognizes_number 2

theorem recognizes_length :
    Recognizes u4 (fun bs v => v < 2 ^ 32 ∧ bs = ofNatBE 4 v) := recognizes_number 4

theorem recognizes_skip_u2 :
    Recognizes (skip 2) (fun bs _ => ∃ x : UInt16, bs = ofNatBE 2 x.toNat) := by
  apply recognizes_congr (recognizes_skip 2)
  intro bs u
  constructor
  · intro h
    have hb := Bytes.bigEndian_lt bs
    rw [h] at hb
    refine ⟨UInt16.ofNatLT (Bytes.bigEndian bs) hb, ?_⟩
    rw [UInt16.toNat_ofNatLT, ← h, Bytes.ofNatBE_bigEndian]
  · intro hw
    obtain ⟨x, rfl⟩ := hw
    simp

theorem recognizes_expectMagic :
    Recognizes expectMagic (fun bs _ => bs = [0xCA, 0xFE, 0xBA, 0xBE]) := by
  have hm : ofNatBE 4 magic = [0xCA, 0xFE, 0xBA, 0xBE] := by decide
  have hc : ∀ found : Nat, Recognizes (if found ≠ magic then fail (.wrongMagic found) else pure ())
      (.empty fun _ => found = magic) := by
    intro found
    by_cases h : found = magic
    · simp only [h, ne_eq, not_true_eq_false, if_false]
      apply recognizes_congr (recognizes_pure ())
      simp [Form.empty]
    · simp only [h, ne_eq, not_false_eq_true, if_true]
      apply recognizes_fail
      simp [Form.empty]
  apply recognizes_congr (recognizes_bind recognizes_length hc)
  intro bs u
  constructor
  · intro hw
    obtain ⟨found, front, back, ⟨-, rfl⟩, ⟨rfl, rfl⟩, rfl⟩ := hw
    simpa using hm
  · intro hw
    subst hw
    exact ⟨magic, _, [], ⟨by decide, hm.symm⟩, ⟨rfl, rfl⟩, rfl⟩

theorem recognizes_skipAttribute :
    Recognizes skipAttribute (fun bs _ => ∃ a : Attribute, bs = a.bytes) := by
  apply recognizes_congr (recognizes_bind recognizes_skip_u2 fun _ =>
    recognizes_bind recognizes_length recognizes_skip)
  intro bs u
  constructor
  · intro h
    obtain ⟨_, _, _, ⟨name, rfl⟩, ⟨length, _, content, ⟨hl, rfl⟩, rfl, rfl⟩, rfl⟩ := h
    exact ⟨⟨name, content, hl⟩, by simp [Attribute.bytes]⟩
  · intro h
    obtain ⟨a, rfl⟩ := h
    exact ⟨(), _, _, ⟨a.name, rfl⟩, ⟨a.content.length, _, a.content, ⟨a.short, rfl⟩, rfl, rfl⟩,
      by simp [Attribute.bytes]⟩

theorem repeated_written {τ : Type} (write : τ → Bytes) (n : Nat) (bs : Bytes) :
    Form.repeated (fun bs _ => ∃ x, bs = write x) n bs () ↔
      ∃ xs : List τ, xs.length = n ∧ bs = xs.flatMap write := by
  constructor
  · intro h
    obtain ⟨parts, rfl, hparts, rfl⟩ := h
    induction parts with
    | nil => exact ⟨[], rfl, rfl⟩
    | cons part parts ih =>
      obtain ⟨x, hx⟩ := hparts part (by simp)
      obtain ⟨xs, hl, hxs⟩ := ih fun p hp => hparts p (by simp [hp])
      exact ⟨x :: xs, by simp [hl], by simp [hx, hxs]⟩
  · intro h
    obtain ⟨xs, rfl, rfl⟩ := h
    refine ⟨xs.map write, by simp, ?_, by simp [List.flatMap_def]⟩
    intro part hp
    obtain ⟨x, -, rfl⟩ := List.mem_map.mp hp
    exact ⟨x, rfl⟩

theorem recognizes_skipMember :
    Recognizes skipMember (fun bs _ => ∃ m : Member, bs = m.bytes) := by
  apply recognizes_congr (recognizes_bind (recognizes_skip 2) fun _ =>
    recognizes_bind (recognizes_skip 2) fun _ => recognizes_bind (recognizes_skip 2) fun _ =>
    recognizes_bind recognizes_count (recognizes_times recognizes_skipAttribute))
  intro bs u
  constructor
  · intro h
    obtain ⟨_, flags, _, hf, ⟨_, name, _, hn, ⟨_, descriptor, _, hd,
      ⟨count, _, back, ⟨hc, rfl⟩, hback, rfl⟩, rfl⟩, rfl⟩, rfl⟩ := h
    obtain ⟨as, rfl, rfl⟩ := (repeated_written Attribute.bytes count back).mp hback
    exact ⟨⟨flags ++ name ++ descriptor, as, by simp [hf, hn, hd], hc⟩, by simp [Member.bytes]⟩
  · intro h
    obtain ⟨m, rfl⟩ := h
    have hs := m.sized
    have hfront : m.front = m.front.take 2 ++ ((m.front.drop 2).take 2 ++ m.front.drop 4) := by
      rw [show m.front.drop 4 = (m.front.drop 2).drop 2 by simp, List.take_append_drop,
        List.take_append_drop]
    have hbytes : m.bytes = m.front.take 2 ++ ((m.front.drop 2).take 2 ++ (m.front.drop 4 ++
        (ofNatBE 2 m.attributes.length ++ m.attributes.flatMap Attribute.bytes))) := by
      conv_lhs => rw [Member.bytes, hfront]
      simp only [List.append_assoc]
    rw [hbytes]
    apply Form.andThen_append () (by simp [hs])
    apply Form.andThen_append () (by simp [hs])
    apply Form.andThen_append () (by simp [hs])
    apply Form.andThen_append m.attributes.length ⟨m.few, rfl⟩
    exact (repeated_written Attribute.bytes _ _).mpr ⟨m.attributes, rfl, rfl⟩

theorem recognizes_members (n : Nat) : Recognizes (times skipMember n)
    (fun bs _ => ∃ ms : List Member, ms.length = n ∧ bs = ms.flatMap Member.bytes) :=
  recognizes_congr (recognizes_times recognizes_skipMember n)
    fun bs _ => repeated_written Member.bytes n bs

theorem recognizes_members_then {α : Type} {r : Reader α} {form : Form α}
    (hr : Recognizes r form) : Recognizes (do
      let count ← u2
      times skipMember count
      r) (fun bs a => ∃ (ms : List Member) (back : Bytes), ms.length < 2 ^ 16 ∧ form back a ∧
        bs = ofNatBE 2 ms.length ++ ms.flatMap Member.bytes ++ back) := by
  apply recognizes_congr (recognizes_bind recognizes_count fun count =>
    recognizes_bind (recognizes_members count) fun _ => hr)
  intro bs a
  constructor
  · intro h
    obtain ⟨_, _, _, ⟨hfew, rfl⟩, ⟨_, _, back, ⟨ms, rfl, rfl⟩, hback, rfl⟩, rfl⟩ := h
    exact ⟨ms, back, hfew, hback, by rw [List.append_assoc]⟩
  · intro h
    obtain ⟨ms, back, hfew, hback, rfl⟩ := h
    exact ⟨_, _, _, ⟨hfew, rfl⟩, ⟨(), _, back, ⟨ms, rfl, rfl⟩, hback, rfl⟩,
      by rw [List.append_assoc]⟩

theorem recognizes_interfaces_then {α : Type} {r : Reader α} {form : Form α}
    (hr : Recognizes r form) : Recognizes (do
      let count ← u2
      skip (2 * count)
      r) (fun bs a => ∃ (count : UInt16) (interfaces back : Bytes),
        interfaces.length = 2 * count.toNat ∧ form back a ∧
        bs = ofNatBE 2 count.toNat ++ interfaces ++ back) := by
  apply recognizes_congr (recognizes_bind recognizes_u2 fun count =>
    recognizes_bind (recognizes_skip (2 * count)) fun _ => hr)
  intro bs a
  constructor
  · intro h
    obtain ⟨_, _, _, ⟨count, rfl, rfl⟩, ⟨_, interfaces, back, hi, hback, rfl⟩, rfl⟩ := h
    exact ⟨count, interfaces, back, hi, hback, by rw [List.append_assoc]⟩
  · intro h
    obtain ⟨count, interfaces, back, hi, hback, rfl⟩ := h
    exact ⟨_, _, _, ⟨count, rfl, rfl⟩, ⟨(), interfaces, back, hi, hback, rfl⟩,
      by rw [List.append_assoc]⟩

end JarIndex.ClassFile.Reader
