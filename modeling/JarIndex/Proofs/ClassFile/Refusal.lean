import JarIndex.Proofs.ClassFile.Incremental

/-!
# Why a reader refuses its input

A fault is a form too: it relates what is left of the input to the cause for which
it is refused. A reader has a fault if it fails exactly for it, except where the
input ends too early, and then some number of bytes is due at the place that is
named. A reader that goes on behind another one has the fault of the first, or its
own behind what the first one reads.
-/

set_option autoImplicit false

namespace JarIndex.ClassFile

namespace Form

variable {α : Type}

def none : Form α := fun _ _ => False

def either (form form' : Form α) : Form α := fun bs a => form bs a ∨ form' bs a

end Form

namespace Reader

variable {α β : Type} {c : Cursor}

/-- That `n` bytes are due behind `front`: the reader breaks off there exactly if there are
fewer, whatever they are. -/
def Owes (r : Reader α) (offset : Nat) (front : Bytes) (n : Nat) : Prop := ∀ back : Bytes,
  r ⟨offset, front ++ back⟩ = .error (.unexpectedEnd (offset + front.length)) ↔ back.length < n

structure Refuses (r : Reader α) (fault : Form DecodeError) : Prop where
  cause : ∀ c e, (∀ o, e ≠ .unexpectedEnd o) → (r c = .error e ↔ fault c.rest e)
  owes : ∀ c o, r c = .error (.unexpectedEnd o) → ∃ (front back : Bytes) (n : Nat),
    c.rest = front ++ back ∧ o = c.offset + front.length ∧ Owes r c.offset front n

theorem refuses_congr {r : Reader α} {fault fault' : Form DecodeError} (h : Refuses r fault)
    (hf : ∀ bs e, fault bs e ↔ fault' bs e) : Refuses r fault' := by
  refine ⟨?_, h.owes⟩
  intro c e he
  rw [h.cause c e he, hf]

theorem refuses_pure (a : α) : Refuses (pure a) .none := by
  constructor
  · intro c e he
    constructor
    · intro h
      cases h
    · exact False.elim
  · intro c o h
    cases h

theorem refuses_lift (x : Except DecodeError α) (hx : ¬ BreaksOff x) :
    Refuses (liftM x) (fun _ e => x = .error e) := by
  have hr : ∀ c e, (liftM x : Reader α) c = .error e ↔ x = .error e := by
    intro c e
    cases x with
    | ok a =>
      constructor
      · intro h
        cases h
      · intro h
        cases h
    | error e' =>
      show Except.error e' = .error e ↔ _
      simp
  refine ⟨fun c e _ => hr c e, ?_⟩
  intro c o h
  exact absurd ⟨o, (hr c _).mp h⟩ hx

theorem refuses_fail {e : DecodeError} (h : ∀ o, e ≠ .unexpectedEnd o) :
    Refuses (fail e : Reader α) (fun _ e' => e' = e) :=
  refuses_congr (refuses_lift (.error e) (not_breaksOff_error h)) fun _ e' => by
    simp [eq_comm]

theorem refuses_bytes (n : Nat) : Refuses (bytes n) .none := by
  have hr : ∀ (c : Cursor) e, bytes n c = .error e ↔
      c.rest.length < n ∧ e = .unexpectedEnd c.offset := by
    intro c e
    rw [← Bytes.split?_eq_none]
    unfold bytes
    cases Bytes.split? n c.rest <;> simp [eq_comm]
  constructor
  · intro c e he
    rw [hr]
    constructor
    · intro h
      exact he _ h.2
    · exact False.elim
  · intro c o h
    obtain ⟨-, ho⟩ := (hr c _).mp h
    cases ho
    refine ⟨[], c.rest, n, rfl, rfl, ?_⟩
    intro back
    rw [hr]
    simp

theorem bind_eq_error {r : Reader α} {f : α → Reader β} {e : DecodeError} :
    (r >>= f) c = .error e ↔ r c = .error e ∨ ∃ a d, r c = .ok (a, d) ∧ f a d = .error e := by
  cases hr : r c with
  | error e' =>
    rw [bind_error f hr]
    simp
  | ok p =>
    obtain ⟨a, d⟩ := p
    rw [bind_ok f hr]
    simp

theorem Recognizes.taken {r : Reader α} {form : Form α} (hr : Recognizes r form) {a : α}
    {d : Cursor} (h : r c = .ok (a, d)) : ∃ bs : Bytes, form bs a ∧ c.rest = bs ++ d.rest ∧
      d.offset = c.offset + bs.length ∧
      ∀ rest, r ⟨c.offset, bs ++ rest⟩ = .ok (a, ⟨d.offset, rest⟩) := by
  obtain ⟨bs, hform, hc, hd⟩ := (hr c a d).mp h
  refine ⟨bs, hform, hc, hd, ?_⟩
  intro rest
  exact (hr _ a _).mpr ⟨bs, hform, rfl, hd⟩

theorem refuses_bind {r : Reader α} {f : α → Reader β} {form : Form α} {fault : Form DecodeError}
    {next : α → Form DecodeError} (hr : Recognizes r form) (h : Refuses r fault)
    (hf : ∀ a, Refuses (f a) (next a)) :
    Refuses (r >>= f) (fault.either (form.andThen next)) := by
  constructor
  · intro c e he
    rw [bind_eq_error, h.cause c e he]
    apply or_congr_right
    constructor
    · intro hw
      obtain ⟨a, d, hra, hfe⟩ := hw
      obtain ⟨bs, hform, hc, -⟩ := hr.taken hra
      exact ⟨a, bs, d.rest, hform, ((hf a).cause d e he).mp hfe, hc⟩
    · intro hw
      obtain ⟨a, front, back, hform, hnext, hc⟩ := hw
      exact ⟨a, ⟨c.offset + front.length, back⟩, (hr c a _).mpr ⟨front, hform, hc, rfl⟩,
        ((hf a).cause _ e he).mpr hnext⟩
  · intro c o hw
    rcases bind_eq_error.mp hw with hro | ⟨a, d, hra, hfo⟩
    · obtain ⟨front, back, n, hc, rfl, howes⟩ := h.owes c o hro
      refine ⟨front, back, n, hc, rfl, ?_⟩
      intro back'
      rw [bind_eq_error, ← howes back']
      refine ⟨?_, Or.inl⟩
      intro hb
      rcases hb with hb | ⟨a, d, hra, hfo⟩
      · exact hb
      -- What the first reader takes ends in front of the place where it breaks off on `c`.
      · obtain ⟨bs, -, hd, hoffset, htaken⟩ := hr.taken hra
        obtain ⟨front', -, -, -, ho, -⟩ := (hf a).owes d _ hfo
        have hle : bs.length ≤ front.length := by
          simp only at hoffset
          omega
        obtain ⟨rest, rfl⟩ : bs <+: front := List.prefix_of_prefix_length_le
          (List.prefix_append bs d.rest) (hd ▸ List.prefix_append front back') hle
        have hok := htaken (rest ++ back)
        rw [← List.append_assoc, ← hc] at hok
        cases hok.symm.trans hro
    · obtain ⟨bs, hform, hc, hoffset, htaken⟩ := hr.taken hra
      obtain ⟨front, back, n, hd, rfl, howes⟩ := (hf a).owes d o hfo
      refine ⟨bs ++ front, back, n, ?_, ?_, ?_⟩
      · rw [hc, hd, List.append_assoc]
      · rw [hoffset, List.length_append, Nat.add_assoc]
      · intro back'
        rw [← howes back', List.append_assoc, bind_ok f (htaken _), List.length_append,
          ← Nat.add_assoc, ← hoffset]

theorem refuses_behind {r : Reader α} {f : α → Reader β} {form : Form α}
    {next : α → Form DecodeError} (hr : Recognizes r form) (h : Refuses r .none)
    (hf : ∀ a, Refuses (f a) (next a)) : Refuses (r >>= f) (form.andThen next) := by
  apply refuses_congr (refuses_bind hr h hf)
  intro bs e
  simp [Form.either, Form.none]

section Faultless

theorem faultless_bind {r : Reader α} {f : α → Reader β} {form : Form α} (hr : Recognizes r form)
    (h : Refuses r .none) (hf : ∀ a, Refuses (f a) .none) : Refuses (r >>= f) .none := by
  apply refuses_congr (refuses_behind hr h hf)
  intro bs e
  simp [Form.andThen, Form.none]

theorem faultless_skip (n : Nat) : Refuses (skip n) .none :=
  faultless_bind (recognizes_bytes n) (refuses_bytes n) fun _ => refuses_pure ()

theorem faultless_number (n : Nat) : Refuses (number n) .none :=
  faultless_bind (recognizes_bytes n) (refuses_bytes n) fun bs => refuses_pure (Bytes.bigEndian bs)

theorem faultless_times {r : Reader Unit} {form : Form Unit} (hr : Recognizes r form)
    (h : Refuses r .none) (n : Nat) : Refuses (times r n) .none := by
  induction n with
  | zero => exact refuses_pure ()
  | succ n ih => exact faultless_bind hr h fun _ => ih

end Faultless

end Reader

end JarIndex.ClassFile
