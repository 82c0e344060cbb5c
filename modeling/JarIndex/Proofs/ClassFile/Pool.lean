import JarIndex.Proofs.ClassFile.Members

/-!
# The constant pool

What the reader of the pool recognizes is a run of constants that fills the slots
below the count. A slot is looked up by its number.
-/

set_option autoImplicit false

namespace JarIndex.ClassFile.Reader

open Bytes (ofNatBE)

theorem payloadSize_eq_some {tag n : Nat} :
    ConstantPool.payloadSize tag = some n ↔ (tag, n) ∈ otherSizes := by
  constructor
  · intro h
    unfold ConstantPool.payloadSize at h
    split at h <;> cases h <;> decide
  · intro h
    simp only [otherSizes, List.mem_cons, Prod.mk.injEq, List.not_mem_nil, or_false] at h
    rcases h with h | h | h | h | h | h | h | h | h | h | h | h | h <;>
      obtain ⟨rfl, rfl⟩ := h <;> rfl

theorem tag_lt (k : Constant) : k.tag < 256 := by
  cases k with
  | text content short => show 1 < 256; decide
  | classNamed name => show 7 < 256; decide
  | wide tag payload tagged sized => show tag < 256; omega
  | other tag payload sized => exact (other_tag sized).1

def Tagged (tag : Nat) : Form Slot := fun bs s =>
  ∃ k : Constant, k.tag = tag ∧ bs = k.payload ∧ s = k.slot

theorem recognizes_text : Recognizes (do let length ← u2; return Slot.text (← bytes length))
    (Tagged 1) := by
  apply recognizes_congr (recognizes_bind recognizes_count fun length =>
    recognizes_bind (recognizes_bytes length) fun content => recognizes_pure (Slot.text content))
  intro bs s
  constructor
  · intro h
    obtain ⟨length, _, _, ⟨hl, rfl⟩, ⟨content, _, _, ⟨rfl, rfl⟩, ⟨rfl, rfl⟩, rfl⟩, rfl⟩ := h
    exact ⟨.text content hl, rfl, by simp [Constant.payload], rfl⟩
  · intro h
    obtain ⟨k, hk, rfl, rfl⟩ := h
    cases k with
    | text content short =>
      exact ⟨_, _, _, ⟨short, rfl⟩, ⟨content, _, _, ⟨rfl, rfl⟩, ⟨rfl, rfl⟩, rfl⟩,
        by simp [Constant.payload]⟩
    | classNamed name => cases hk
    | wide tag payload tagged sized => rcases tagged with rfl | rfl <;> cases hk
    | other tag payload sized => exact absurd hk (other_tag sized).2.1

theorem recognizes_classNamed : Recognizes (do return Slot.classNamed (← u2)) (Tagged 7) := by
  apply recognizes_congr (recognizes_bind recognizes_u2 fun name =>
    recognizes_pure (Slot.classNamed name))
  intro bs s
  constructor
  · intro h
    obtain ⟨_, _, _, ⟨name, rfl, rfl⟩, ⟨rfl, rfl⟩, rfl⟩ := h
    exact ⟨.classNamed name, rfl, by simp [Constant.payload], rfl⟩
  · intro h
    obtain ⟨k, hk, rfl, rfl⟩ := h
    cases k with
    | text content short => cases hk
    | classNamed name => exact ⟨_, _, _, ⟨name, rfl, rfl⟩, ⟨rfl, rfl⟩, by simp [Constant.payload]⟩
    | wide tag payload tagged sized => rcases tagged with rfl | rfl <;> cases hk
    | other tag payload sized => exact absurd hk (other_tag sized).2.2.1

theorem recognizes_wide {tag : Nat} (ht : tag = 5 ∨ tag = 6) :
    Recognizes (do skip 8; return Slot.wide) (Tagged tag) := by
  apply recognizes_congr (recognizes_bind (recognizes_skip 8) fun _ => recognizes_pure Slot.wide)
  intro bs s
  constructor
  · intro h
    obtain ⟨_, payload, _, hp, ⟨rfl, rfl⟩, rfl⟩ := h
    exact ⟨.wide tag payload ht hp, rfl, by simp [Constant.payload], rfl⟩
  · intro h
    obtain ⟨k, rfl, rfl, rfl⟩ := h
    cases k with
    | text content short => simp [Constant.tag] at ht
    | classNamed name => simp [Constant.tag] at ht
    | wide tag payload tagged sized =>
      exact ⟨(), payload, [], sized, ⟨rfl, rfl⟩, by simp [Constant.payload]⟩
    | other tag payload sized =>
      rcases ht with ht | ht
      · exact absurd ht (other_tag sized).2.2.2.1
      · exact absurd ht (other_tag sized).2.2.2.2

theorem recognizes_other {tag n : Nat} (hn : ConstantPool.payloadSize tag = some n) :
    Recognizes (do skip n; return Slot.other) (Tagged tag) := by
  have ht := other_tag (payloadSize_eq_some.mp hn)
  apply recognizes_congr (recognizes_bind (recognizes_skip n) fun _ => recognizes_pure Slot.other)
  intro bs s
  constructor
  · intro h
    obtain ⟨_, payload, _, hp, ⟨rfl, rfl⟩, rfl⟩ := h
    exact ⟨.other tag payload (by rw [hp]; exact payloadSize_eq_some.mp hn), rfl,
      by simp [Constant.payload], rfl⟩
  · intro h
    obtain ⟨k, rfl, rfl, rfl⟩ := h
    cases k with
    | text content short => exact absurd rfl ht.2.1
    | classNamed name => exact absurd rfl ht.2.2.1
    | wide tag payload tagged sized =>
      rcases tagged with rfl | rfl
      · exact absurd rfl ht.2.2.2.1
      · exact absurd rfl ht.2.2.2.2
    | other tag payload sized =>
      have hs : some n = some payload.length := hn.symm.trans (payloadSize_eq_some.mpr sized)
      exact ⟨(), payload, [], (Option.some.inj hs).symm, ⟨rfl, rfl⟩, by simp [Constant.payload]⟩

theorem tag_known {k : Constant} (h1 : k.tag ≠ 1) (h7 : k.tag ≠ 7)
    (hw : ¬ (k.tag = 5 ∨ k.tag = 6)) : ∃ n, ConstantPool.payloadSize k.tag = some n := by
  cases k with
  | text content short => exact absurd rfl h1
  | classNamed name => exact absurd rfl h7
  | wide tag payload tagged sized => exact absurd tagged hw
  | other tag payload sized => exact ⟨payload.length, payloadSize_eq_some.mpr sized⟩

theorem recognizes_constant (slot : Nat) : Recognizes (ConstantPool.constant slot)
    (fun bs s => ∃ k : Constant, bs = k.bytes ∧ s = k.slot) := by
  have hr : Recognizes (ConstantPool.constant slot)
      (Form.andThen (fun bs v => v < 256 ∧ bs = ofNatBE 1 v) Tagged) := by
    apply recognizes_bind recognizes_u1
    intro tag
    by_cases h1 : tag = 1
    · subst h1
      exact recognizes_text
    by_cases h7 : tag = 7
    · subst h7
      exact recognizes_classNamed
    by_cases hw : tag = 5 ∨ tag = 6
    · simp only [h1, h7, hw, if_false, if_true]
      exact recognizes_wide hw
    simp only [h1, h7, hw, if_false]
    split
    · rename_i n hn
      exact recognizes_other hn
    · rename_i hn
      apply recognizes_fail
      intro bs s h
      obtain ⟨k, rfl, -⟩ := h
      obtain ⟨n, hk⟩ := tag_known h1 h7 hw
      cases hn.symm.trans hk
  apply recognizes_congr hr
  intro bs s
  constructor
  · intro h
    obtain ⟨_, _, _, ⟨-, rfl⟩, ⟨k, rfl, rfl, rfl⟩, rfl⟩ := h
    exact ⟨k, rfl, rfl⟩
  · intro h
    obtain ⟨k, rfl, rfl⟩ := h
    exact ⟨k.tag, _, _, ⟨tag_lt k, rfl⟩, ⟨k, rfl, rfl, rfl⟩, rfl⟩

theorem toList_add (pool : ConstantPool) (k : Constant) :
    (pool.add k.slot).toList = pool.toList ++ k.slots := by
  unfold ConstantPool.add Constant.slots
  split <;> simp_all

theorem size_add (pool : ConstantPool) (k : Constant) :
    (pool.add k.slot).size = pool.size + k.slots.length := by
  rw [← Array.length_toList, toList_add, List.length_append, Array.length_toList]

def Filling (count : Nat) (pool : ConstantPool) : Form ConstantPool := fun bs all =>
  ∃ ks : List Constant, Fills count pool.size ks ∧ bs = ks.flatMap Constant.bytes ∧
    all.toList = pool.toList ++ ks.flatMap Constant.slots

theorem recognizes_fill (count : Nat) (pool : ConstantPool) :
    Recognizes (ConstantPool.fill count pool) (Filling count pool) := by
  induction pool using ConstantPool.fill.induct count with
  | case1 pool hlt ih =>
    rw [ConstantPool.fill, if_pos hlt]
    apply recognizes_congr (recognizes_bind (recognizes_constant pool.size) ih)
    intro bs all
    constructor
    · intro h
      obtain ⟨_, _, _, ⟨k, rfl, rfl⟩, ⟨ks, hks, rfl, hall⟩, rfl⟩ := h
      rw [size_add] at hks
      rw [toList_add] at hall
      exact ⟨k :: ks, fills_cons.mpr ⟨hlt, hks⟩, rfl, by simp [hall]⟩
    · intro h
      obtain ⟨ks, hks, rfl, hall⟩ := h
      cases ks with
      | nil =>
        have := fills_nil.mp hks
        omega
      | cons k ks =>
        refine ⟨k.slot, _, _, ⟨k, rfl, rfl⟩, ⟨ks, ?_, rfl, ?_⟩, rfl⟩
        · rw [size_add]
          exact (fills_cons.mp hks).2
        · rw [toList_add, hall]
          simp
  | case2 pool hge =>
    rw [ConstantPool.fill, if_neg hge]
    apply recognizes_congr (recognizes_pure pool)
    intro bs all
    constructor
    · intro h
      obtain ⟨rfl, rfl⟩ := h
      exact ⟨[], fills_nil.mpr (by omega), rfl, by simp⟩
    · intro h
      obtain ⟨ks, hks, rfl, hall⟩ := h
      cases ks with
      | nil => exact ⟨rfl, Array.toList_inj.mp (by simpa using hall)⟩
      | cons k ks => exact absurd (fills_cons.mp hks).1 hge

theorem recognizes_pool : Recognizes ConstantPool.read (fun bs pool =>
    ∃ (count : UInt16) (ks : List Constant), Fills count.toNat 1 ks ∧
      bs = ofNatBE 2 count.toNat ++ ks.flatMap Constant.bytes ∧
      pool.toList = .unusable :: ks.flatMap Constant.slots) := by
  apply recognizes_congr (recognizes_bind recognizes_u2 fun count => recognizes_fill count _)
  intro bs pool
  constructor
  · intro h
    obtain ⟨_, _, _, ⟨count, rfl, rfl⟩, ⟨ks, hks, rfl, hpool⟩, rfl⟩ := h
    exact ⟨count, ks, hks, rfl, by simpa using hpool⟩
  · intro h
    obtain ⟨count, ks, hks, rfl, hpool⟩ := h
    exact ⟨_, _, _, ⟨count, rfl, rfl⟩, ⟨ks, hks, rfl, by simpa using hpool⟩, rfl⟩

theorem textBytes_eq_ok {pool : ConstantPool} {i : Nat} {content : Bytes} :
    pool.textBytes i = .ok content ↔ pool.toList[i]? = some (.text content) := by
  rw [Array.getElem?_toList]
  unfold ConstantPool.textBytes
  split
  · rename_i bs hi
    simp [hi]
  · rename_i hi
    constructor
    · intro h
      cases h
    · intro h
      exact absurd h (hi content)

theorem text_eq_ok {pool : ConstantPool} {i : Nat} {s : String} :
    pool.text i = .ok s ↔ TextAt pool.toList i s := by
  unfold ConstantPool.text TextAt
  simp only [← textBytes_eq_ok]
  cases hb : pool.textBytes i with
  | error e => simp [bind, Except.bind]
  | ok content =>
    cases hd : ModifiedUtf8.decode content with
    | none => simp [bind, Except.bind, hd, throw, throwThe, MonadExceptOf.throw]
    | some t => simp [bind, Except.bind, hd, pure, Except.pure]

theorem className_eq_ok {pool : ConstantPool} {i : Nat} {s : String} : pool.className i = .ok s ↔
    ∃ name, pool.toList[i]? = some (.classNamed name) ∧ TextAt pool.toList name s := by
  rw [Array.getElem?_toList]
  unfold ConstantPool.className
  split
  · rename_i name hi
    simp [hi, text_eq_ok]
  · rename_i hi
    constructor
    · intro h
      cases h
    · intro hw
      obtain ⟨name, h, -⟩ := hw
      exact absurd h (hi name)

end JarIndex.ClassFile.Reader
