import JarIndex.Proofs.ClassFile.Acceptance
import JarIndex.Proofs.ClassFile.Incremental
import Mathlib.Order.Nat

/-!
# Class files that break off

A class file is said to end too early exactly as long as bytes are missing that
could still decide on it. Every other verdict is final: no byte behind changes it.
-/

set_option autoImplicit false

namespace JarIndex.ClassFile

namespace Reader

variable {α : Type} {r : Reader α} {b : Bytes}

theorem parse_append_eq (r : Reader α) (b t : Bytes) :
    r.parse (b ++ t) = (r (Cursor.extend ⟨0, b⟩ t)).map Prod.fst := rfl

theorem breaksOff_parse {c : Cursor} : BreaksOff ((r c).map Prod.fst) ↔ BreaksOff (r c) := by
  unfold BreaksOff
  cases r c <;> simp [Except.map]

theorem parse_append (hr : Incremental r) (h : ¬ BreaksOff (r.parse b)) (t : Bytes) :
    r.parse (b ++ t) = r.parse b := by
  rw [parse_append_eq]
  unfold parse at *
  cases hr ⟨0, b⟩ with
  | read value _ stays =>
    rw [value, stays t]
    rfl
  | refused cause _ stays => rw [cause, stays t]
  | broken cause => exact absurd (breaksOff_parse.mpr ⟨_, cause⟩) h

theorem breaksOff_of_append (hr : Incremental r) {t : Bytes} (h : BreaksOff (r.parse (b ++ t))) :
    BreaksOff (r.parse b) := by
  by_contra hn
  rw [parse_append hr hn t] at h
  exact hn h

theorem parse_completes (hr : Incremental r) (b : Bytes) :
    ∃ t, ¬ BreaksOff (r.parse (b ++ t)) := by
  obtain ⟨t, ht⟩ := (hr ⟨0, b⟩).completes
  refine ⟨t, ?_⟩
  rw [parse_append_eq, breaksOff_parse]
  exact ht

theorem offset_le (hr : Incremental r) {o : Nat} (h : r.parse b = .error (.unexpectedEnd o)) :
    o ≤ b.length := by
  unfold parse at h
  cases hr ⟨0, b⟩ with
  | read value =>
    rw [value] at h
    cases h
  | refused cause final =>
    rw [cause] at h
    cases h
    exact absurd rfl (final o)
  | broken cause within =>
    rw [cause] at h
    cases h
    simpa [Cursor.limit] using within

/-- The prefixes of an input that break off are those shorter than some length, and all others
have the verdict on the whole. -/
theorem parse_take (hr : Incremental r) (b : Bytes) :
    ∃ n ≤ b.length + 1, ∀ k ≤ b.length, (k < n → BreaksOff (r.parse (b.take k))) ∧
      (n ≤ k → ¬ BreaksOff (r.parse (b.take k)) ∧ r.parse (b.take k) = r.parse b) := by
  classical
  have hx : ∃ n, n = b.length + 1 ∨ ¬ BreaksOff (r.parse (b.take n)) := ⟨_, Or.inl rfl⟩
  refine ⟨Nat.find hx, Nat.find_min' hx (Or.inl rfl), ?_⟩
  intro k hk
  constructor
  · intro h
    have hn := Nat.find_min hx h
    exact not_not.mp fun hb => hn (Or.inr hb)
  · intro h
    have hn : ¬ BreaksOff (r.parse (b.take (Nat.find hx))) := by
      rcases Nat.find_spec hx with he | hn
      · omega
      · exact hn
    have hb : ¬ BreaksOff (r.parse (b.take k)) := by
      intro hb
      rw [← List.take_append_drop (Nat.find hx) (b.take k), List.take_take, Nat.min_eq_left h] at hb
      exact hn (breaksOff_of_append hr hb)
    refine ⟨hb, ?_⟩
    rw [← parse_append hr hb (b.drop k), List.take_append_drop]

end Reader

theorem header_layout {l : Layout} {h : Header} (hd : l.Describes h) :
    Reader.header ⟨0, l.bytes⟩ = .ok (h, ⟨l.bytes.length, []⟩) := by
  apply (Reader.recognizes_header _ _ _).mpr
  exact ⟨l.bytes, ⟨l, rfl, hd⟩, by simp, by simp⟩

theorem breaksOff_take_layout {l : Layout} {h : Header} (hd : l.Describes h) {k : Nat}
    (hk : k < l.bytes.length) : BreaksOff (parse (l.bytes.take k)) := by
  have whole := header_layout hd
  rw [← List.take_append_drop k l.bytes] at whole
  apply Reader.breaksOff_parse.mpr
  cases Reader.incremental_header ⟨0, l.bytes.take k⟩ with
  | @read a d _ _ stays =>
    have he := whole.symm.trans (stays (l.bytes.drop k))
    have hrest : [] = d.rest ++ l.bytes.drop k := congrArg Cursor.rest (Prod.mk.inj (Except.ok.inj he)).2
    have hdrop := (List.append_eq_nil_iff.mp hrest.symm).2
    rw [List.drop_eq_nil_iff] at hdrop
    omega
  | refused _ _ stays =>
    cases whole.symm.trans (stays (l.bytes.drop k))
  | broken cause => exact ⟨_, cause⟩

/-- An input is said to end too early, at a place within it, exactly as long as more bytes could
bring another verdict, and every other verdict is final. So the prefixes that break off are the
shorter ones, all longer ones have the verdict on the whole, and nothing can be left out at the
end of a class file. -/
theorem parse_breaksOff_or_final (b : Bytes) :
    (¬ BreaksOff (parse b) → ∀ t, parse (b ++ t) = parse b) ∧
    (∀ o, parse b = .error (.unexpectedEnd o) →
      o ≤ b.length ∧ ∃ t, ¬ BreaksOff (parse (b ++ t))) ∧
    (∃ n ≤ b.length + 1, ∀ k ≤ b.length, (k < n → BreaksOff (parse (b.take k))) ∧
      (n ≤ k → ¬ BreaksOff (parse (b.take k)) ∧ parse (b.take k) = parse b)) ∧
    ∀ l h, Layout.Describes l h → b = l.bytes →
      parse b = .ok h ∧ ∀ k < b.length, BreaksOff (parse (b.take k)) := by
  have hr := Reader.incremental_header
  refine ⟨Reader.parse_append hr, ?_, Reader.parse_take hr b, ?_⟩
  · intro o h
    exact ⟨Reader.offset_le hr h, Reader.parse_completes hr b⟩
  · rintro l h hd rfl
    refine ⟨?_, fun k => breaksOff_take_layout hd⟩
    unfold parse Reader.parse
    rw [header_layout hd]
    rfl

end JarIndex.ClassFile
