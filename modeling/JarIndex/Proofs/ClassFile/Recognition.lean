import JarIndex.ClassFile.Reader
import JarIndex.Proofs.Bytes

/-!
# What a reader recognizes

A form relates byte strings to the values that they write. A reader recognizes a
form if it succeeds exactly where the rest of the input starts with the form of a
value, gives that value, and stops directly behind it. Forms compose as readers
do, so both directions of a format are proved at once.
-/

set_option autoImplicit false

namespace JarIndex.ClassFile

abbrev Form (α : Type) := Bytes → α → Prop

namespace Form

variable {α β : Type}

def empty (p : α → Prop) : Form α := fun bs a => bs = [] ∧ p a

def andThen (form : Form α) (next : α → Form β) : Form β := fun bs b =>
  ∃ a front back, form front a ∧ next a back b ∧ bs = front ++ back

def repeated (form : Form Unit) (n : Nat) : Form Unit := fun bs _ =>
  ∃ parts : List Bytes, parts.length = n ∧ (∀ part ∈ parts, form part ()) ∧ bs = parts.flatten

theorem andThen_append {form : Form α} {next : α → Form β} {front back : Bytes} {b : β} (a : α)
    (hf : form front a) (hn : next a back b) : form.andThen next (front ++ back) b :=
  ⟨a, front, back, hf, hn, rfl⟩

end Form

namespace Reader

variable {α β : Type}

def Recognizes (r : Reader α) (form : Form α) : Prop := ∀ c a d,
  r c = .ok (a, d) ↔ ∃ bs, form bs a ∧ c.rest = bs ++ d.rest ∧ d.offset = c.offset + bs.length

theorem bind_eq_ok {r : Reader α} {f : α → Reader β} {c d : Cursor} {b : β} :
    (r >>= f) c = .ok (b, d) ↔ ∃ a e, r c = .ok (a, e) ∧ f a e = .ok (b, d) := by
  show (r c >>= fun p => f p.1 p.2) = .ok (b, d) ↔ _
  cases hr : r c with
  | error x => simp [bind, Except.bind]
  | ok p =>
    obtain ⟨a, e⟩ := p
    constructor
    · intro h
      exact ⟨a, e, rfl, h⟩
    · intro hw
      obtain ⟨a', e', ha, h⟩ := hw
      cases ha
      exact h

theorem recognizes_congr {r : Reader α} {form form' : Form α} (h : Recognizes r form)
    (hf : ∀ bs a, form bs a ↔ form' bs a) : Recognizes r form' := by
  intro c a d
  rw [h c a d]
  simp only [hf]

theorem recognizes_pure (a : α) : Recognizes (pure a) (.empty (· = a)) := by
  intro c b hw
  obtain ⟨o, rest⟩ := hw
  show Except.ok (a, c) = .ok (b, ⟨o, rest⟩) ↔ _
  constructor
  · intro h
    cases h
    exact ⟨[], ⟨rfl, rfl⟩, rfl, rfl⟩
  · intro hw
    obtain ⟨bs, ⟨rfl, rfl⟩, hr, ho⟩ := hw
    cases c
    simp_all

theorem recognizes_bind {r : Reader α} {f : α → Reader β} {form : Form α} {next : α → Form β}
    (hr : Recognizes r form) (hf : ∀ a, Recognizes (f a) (next a)) :
    Recognizes (r >>= f) (form.andThen next) := by
  intro c b d
  rw [bind_eq_ok]
  constructor
  · intro h
    obtain ⟨a, e, hra, hfb⟩ := h
    obtain ⟨front, hform, hc, he⟩ := (hr c a e).mp hra
    obtain ⟨back, hnext, hd, hb⟩ := (hf a e b d).mp hfb
    refine ⟨front ++ back, ⟨a, front, back, hform, hnext, rfl⟩, ?_, ?_⟩
    · rw [hc, hd, List.append_assoc]
    · rw [hb, he, List.length_append, Nat.add_assoc]
  · intro h
    obtain ⟨_, ⟨a, front, back, hform, hnext, rfl⟩, hc, hd⟩ := h
    refine ⟨a, ⟨c.offset + front.length, back ++ d.rest⟩, ?_, ?_⟩
    · exact (hr c a _).mpr ⟨front, hform, by rw [hc, List.append_assoc], rfl⟩
    · refine (hf a _ b d).mpr ⟨back, hnext, rfl, ?_⟩
      rw [hd, List.length_append, Nat.add_assoc]

theorem recognizes_fail (e : DecodeError) (form : Form α) (h : ∀ bs a, ¬ form bs a) :
    Recognizes (fail e) form := by
  intro c a d
  constructor
  · intro hf
    cases hf
  · intro hw
    obtain ⟨bs, hform, -⟩ := hw
    exact absurd hform (h bs a)

theorem recognizes_lift (x : Except DecodeError α) :
    Recognizes (liftM x) (.empty (x = .ok ·)) := by
  intro c a d
  cases x with
  | error e =>
    apply recognizes_fail e
    intro bs a h
    obtain ⟨-, ha⟩ := h
    cases ha
  | ok v =>
    refine recognizes_congr (recognizes_pure v) ?_ c a d
    intro bs b
    simp [Form.empty, eq_comm]

theorem recognizes_bytes (n : Nat) :
    Recognizes (bytes n) (fun bs a => a = bs ∧ bs.length = n) := by
  intro c a hw
  obtain ⟨o, rest⟩ := hw
  unfold bytes
  cases hs : Bytes.split? n c.rest with
  | none =>
    have hn := Bytes.split?_eq_none.mp hs
    constructor
    · intro h
      cases h
    · intro hw
      obtain ⟨bs, ⟨rfl, hl⟩, hc, -⟩ := hw
      rw [hc, List.length_append, hl] at hn
      omega
  | some p =>
    obtain ⟨front, back⟩ := p
    obtain ⟨hl, hc⟩ := Bytes.split?_eq_some.mp hs
    constructor
    · intro h
      cases h
      exact ⟨a, ⟨rfl, hl⟩, hc, by rw [hl]⟩
    · intro hw
      obtain ⟨bs, ⟨rfl, hb⟩, hcb, ho⟩ := hw
      obtain ⟨rfl, rfl⟩ := List.append_inj (hc.symm.trans hcb) (by rw [hl, hb])
      have ho' : o = c.offset + n := by rw [← hb]; exact ho
      rw [ho']

theorem recognizes_skip (n : Nat) : Recognizes (skip n) (fun bs _ => bs.length = n) := by
  apply recognizes_congr (recognizes_bind (recognizes_bytes n) (fun _ => recognizes_pure ()))
  intro bs u
  constructor
  · intro h
    obtain ⟨a, front, back, ⟨-, hl⟩, ⟨rfl, -⟩, rfl⟩ := h
    simpa using hl
  · intro hl
    exact ⟨bs, bs, [], ⟨rfl, hl⟩, ⟨rfl, rfl⟩, by simp⟩

theorem recognizes_number (n : Nat) :
    Recognizes (number n) (fun bs v => v < 256 ^ n ∧ bs = Bytes.ofNatBE n v) := by
  apply recognizes_congr (recognizes_bind (recognizes_bytes n) (fun bs => recognizes_pure _))
  intro bs v
  constructor
  · intro h
    obtain ⟨a, front, back, ⟨rfl, hl⟩, ⟨rfl, rfl⟩, rfl⟩ := h
    rw [List.append_nil, ← hl]
    exact ⟨Bytes.bigEndian_lt a, (Bytes.ofNatBE_bigEndian a).symm⟩
  · intro h
    obtain ⟨hv, rfl⟩ := h
    refine ⟨_, _, [], ⟨rfl, Bytes.length_ofNatBE n v⟩, ⟨rfl, ?_⟩, by simp⟩
    exact (Bytes.bigEndian_ofNatBE n v hv).symm

theorem recognizes_times {r : Reader Unit} {form : Form Unit} (hr : Recognizes r form)
    (n : Nat) : Recognizes (times r n) (form.repeated n) := by
  induction n with
  | zero =>
    apply recognizes_congr (recognizes_pure ())
    intro bs u
    simp [Form.empty, Form.repeated]
  | succ n ih =>
    apply recognizes_congr (recognizes_bind hr (fun _ => ih))
    intro bs u
    constructor
    · intro h
      obtain ⟨_, front, _, hfront, ⟨parts, rfl, hparts, rfl⟩, rfl⟩ := h
      refine ⟨front :: parts, rfl, ?_, rfl⟩
      intro part hp
      rcases List.mem_cons.mp hp with rfl | hp
      · exact hfront
      · exact hparts part hp
    · intro h
      obtain ⟨parts, hl, hparts, rfl⟩ := h
      cases parts with
      | nil => cases hl
      | cons front parts =>
        exact ⟨(), front, parts.flatten, hparts front (by simp),
          ⟨parts, by simpa using hl, fun p hp => hparts p (by simp [hp]), rfl⟩, rfl⟩

theorem parse_eq_ok {r : Reader α} {form : Form α} (hr : Recognizes r form) {bs : Bytes} {a : α} :
    r.parse bs = .ok a ↔ ∃ front rest, form front a ∧ bs = front ++ rest := by
  have hp : r.parse bs = .ok a ↔ ∃ d, r ⟨0, bs⟩ = .ok (a, d) := by
    unfold parse
    cases r ⟨0, bs⟩ with
    | error e => simp [Except.map]
    | ok p => simp [Except.map, Prod.ext_iff]
  rw [hp]
  constructor
  · intro h
    obtain ⟨d, hd⟩ := h
    obtain ⟨front, hform, hc, -⟩ := (hr _ a d).mp hd
    exact ⟨front, d.rest, hform, hc⟩
  · intro h
    obtain ⟨front, rest, hform, hc⟩ := h
    exact ⟨⟨0 + front.length, rest⟩, (hr _ a _).mpr ⟨front, hform, hc, rfl⟩⟩

end Reader

end JarIndex.ClassFile
