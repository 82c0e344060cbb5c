import JarIndex.Proofs.ClassFile.Pool

/-!
# The attributes of a class

Each attribute of a class must have a name, and one that is named as the source
file attribute replaces the source file that was told before it.
-/

set_option autoImplicit false

namespace JarIndex.ClassFile.Reader

open Bytes (ofNatBE)

def Content (slots : List Slot) (text : Bytes) (length : Nat) (before : Option String) :
    Form (Option String) := fun bs after => bs.length = length ∧
  ((text ≠ sourceFileName ∧ after = before) ∨
    (text = sourceFileName ∧ ∃ value : UInt16, bs = ofNatBE 2 value.toNat ∧
      ∃ s, TextAt slots value.toNat s ∧ after = some s))

theorem recognizes_passed (slots : List Slot) (text : Bytes) (length : Nat)
    (before : Option String) (ht : text ≠ sourceFileName) :
    Recognizes (do skip length; return before) (Content slots text length before) := by
  apply recognizes_congr (recognizes_bind (recognizes_skip length) fun _ => recognizes_pure before)
  intro bs after
  constructor
  · intro h
    obtain ⟨_, front, _, hf, ⟨rfl, rfl⟩, rfl⟩ := h
    exact ⟨by simpa using hf, Or.inl ⟨ht, rfl⟩⟩
  · intro h
    obtain ⟨hbs, ⟨-, rfl⟩ | ⟨hn, -⟩⟩ := h
    · exact ⟨(), bs, [], hbs, ⟨rfl, rfl⟩, by simp⟩
    · exact absurd hn ht

theorem recognizes_value (pool : ConstantPool) (before : Option String) :
    Recognizes (do let value ← u2; return some (← pool.text value))
      (Content pool.toList sourceFileName 2 before) := by
  apply recognizes_congr (recognizes_bind recognizes_u2 fun value =>
    recognizes_bind (recognizes_lift (pool.text value)) fun s => recognizes_pure (some s))
  intro bs after
  constructor
  · intro h
    obtain ⟨_, _, _, ⟨value, rfl, rfl⟩, ⟨s, _, _, ⟨rfl, hs⟩, ⟨rfl, rfl⟩, rfl⟩, rfl⟩ := h
    exact ⟨by simp, Or.inr ⟨rfl, value, by simp, s, text_eq_ok.mp hs, rfl⟩⟩
  · intro h
    obtain ⟨-, ⟨hn, -⟩ | ⟨-, value, rfl, s, hs, rfl⟩⟩ := h
    · exact absurd rfl hn
    · exact ⟨_, _, _, ⟨value, rfl, rfl⟩,
        ⟨s, _, _, ⟨rfl, text_eq_ok.mpr hs⟩, ⟨rfl, rfl⟩, rfl⟩, by simp⟩

theorem recognizes_content (pool : ConstantPool) (text : Bytes) (length : Nat)
    (before : Option String) :
    Recognizes (if text ≠ sourceFileName then do
        skip length
        return before
      else if length ≠ 2 then fail (.malformedSourceFile length)
      else do
        let value ← u2
        return some (← pool.text value)) (Content pool.toList text length before) := by
  by_cases ht : text = sourceFileName
  · subst ht
    rw [if_neg (not_not.mpr rfl)]
    by_cases hl : length = 2
    · subst hl
      rw [if_neg (not_not.mpr rfl)]
      exact recognizes_value pool before
    · rw [if_pos hl]
      apply recognizes_fail
      intro bs after h
      obtain ⟨hbs, ⟨hn, -⟩ | ⟨-, value, rfl, -⟩⟩ := h
      · exact hn rfl
      · exact hl (by simpa using hbs.symm)
  · rw [if_pos ht]
    exact recognizes_passed pool.toList text length before ht

def Updates (slots : List Slot) (a : Attribute) (before after : Option String) : Prop :=
  (¬ a.IsSource slots ∧ after = before) ∨
    (a.IsSource slots ∧ ∃ s, a.Tells slots s ∧ after = some s)

theorem content_iff_updates {slots : List Slot} {a : Attribute} {text : Bytes}
    {before after : Option String} (ht : slots[a.name.toNat]? = some (.text text)) :
    Content slots text a.content.length before a.content after ↔ Updates slots a before after := by
  have hsource : a.IsSource slots ↔ text = sourceFileName := by
    unfold Attribute.IsSource
    rw [ht]
    simp
  unfold Content Updates
  rw [hsource]
  constructor
  · intro h
    obtain ⟨-, ⟨hn, rfl⟩ | ⟨rfl, value, hvalue, s, hs, rfl⟩⟩ := h
    · exact Or.inl ⟨hn, rfl⟩
    · exact Or.inr ⟨rfl, s, ⟨value, hvalue, hs⟩, rfl⟩
  · intro h
    rcases h with ⟨hn, rfl⟩ | ⟨rfl, s, ⟨value, hvalue, hs⟩, rfl⟩
    · exact ⟨rfl, Or.inl ⟨hn, rfl⟩⟩
    · exact ⟨rfl, Or.inr ⟨rfl, value, hvalue, s, hs, rfl⟩⟩

theorem recognizes_classAttribute (pool : ConstantPool) (before : Option String) :
    Recognizes (classAttribute pool before) (fun bs after => ∃ a : Attribute, bs = a.bytes ∧
      a.IsNamed pool.toList ∧ Updates pool.toList a before after) := by
  apply recognizes_congr (recognizes_bind recognizes_u2 fun name =>
    recognizes_bind recognizes_length fun length =>
    recognizes_bind (recognizes_lift (pool.textBytes name)) fun text =>
    recognizes_content pool text length before)
  intro bs after
  constructor
  · intro h
    obtain ⟨_, _, _, ⟨name, rfl, rfl⟩, ⟨length, _, content, ⟨hlt, rfl⟩, ⟨text, _, _, ⟨rfl, htext⟩,
      hcontent, rfl⟩, rfl⟩, rfl⟩ := h
    obtain rfl := hcontent.1
    have hslot := textBytes_eq_ok.mp htext
    let a : Attribute := ⟨name, content, hlt⟩
    exact ⟨a, by simp [a, Attribute.bytes], ⟨text, hslot⟩,
      (content_iff_updates (a := a) hslot).mp hcontent⟩
  · intro h
    obtain ⟨a, rfl, ⟨text, htext⟩, hupdates⟩ := h
    exact ⟨_, _, _, ⟨a.name, rfl, rfl⟩, ⟨a.content.length, _, a.content, ⟨a.short, rfl⟩,
      ⟨text, [], a.content, ⟨rfl, textBytes_eq_ok.mpr htext⟩,
        (content_iff_updates htext).mpr hupdates, rfl⟩, rfl⟩, by simp [Attribute.bytes]⟩

def Outcome (slots : List Slot) (as : List Attribute) (before after : Option String) : Prop :=
  ∀ s, after = some s ↔ Attribute.LastTells slots as s ∨
    (before = some s ∧ ∀ a ∈ as, ¬ a.IsSource slots)

theorem outcome_nil {slots : List Slot} {before after : Option String} :
    Outcome slots [] before after ↔ after = before := by
  unfold Outcome
  simp only [Attribute.lastTells_nil, false_or, List.not_mem_nil, false_imp_iff, implies_true,
    and_true]
  exact ⟨fun h => Option.ext h, fun h s => by rw [h]⟩

theorem updates_some {slots : List Slot} {a : Attribute} {before after : Option String}
    (h : Updates slots a before after) (s : String) :
    after = some s ↔ (a.IsSource slots ∧ a.Tells slots s) ∨
      (before = some s ∧ ¬ a.IsSource slots) := by
  rcases h with ⟨hn, rfl⟩ | ⟨ha, t, ht, rfl⟩
  · simp [hn]
  · simp only [ha, true_and, not_true_eq_false, and_false, or_false]
    constructor
    · intro h
      cases h
      exact ht
    · intro hs
      rw [Attribute.tells_unique ht hs]

theorem outcome_cons {slots : List Slot} {a : Attribute} {as : List Attribute}
    {before middle after : Option String} (h : Updates slots a before middle) :
    Outcome slots (a :: as) before after ↔ Outcome slots as middle after := by
  have hs : ∀ s, (Attribute.LastTells slots (a :: as) s ∨
      (before = some s ∧ ∀ b ∈ a :: as, ¬ b.IsSource slots)) ↔
      (Attribute.LastTells slots as s ∨ (middle = some s ∧ ∀ b ∈ as, ¬ b.IsSource slots)) := by
    intro s
    rw [Attribute.lastTells_cons, updates_some h s, List.forall_mem_cons]
    tauto
  unfold Outcome
  simp only [hs]

theorem exists_updates {slots : List Slot} {a : Attribute} (before : Option String)
    (h : a.IsSource slots → ∃ s, a.Tells slots s) : ∃ after, Updates slots a before after := by
  by_cases ha : a.IsSource slots
  · obtain ⟨s, hs⟩ := h ha
    exact ⟨some s, Or.inr ⟨ha, s, hs, rfl⟩⟩
  · exact ⟨before, Or.inl ⟨ha, rfl⟩⟩

theorem told_of_updates {slots : List Slot} {a : Attribute} {before after : Option String}
    (h : Updates slots a before after) : a.IsSource slots → ∃ s, a.Tells slots s := by
  intro ha
  rcases h with ⟨hn, -⟩ | ⟨-, s, hs, -⟩
  · exact absurd ha hn
  · exact ⟨s, hs⟩

theorem recognizes_classAttributes (pool : ConstantPool) (n : Nat) (before : Option String) :
    Recognizes (classAttributes pool n before) (fun bs after => ∃ as : List Attribute,
      as.length = n ∧ bs = as.flatMap Attribute.bytes ∧ Attribute.Legible pool.toList as ∧
        Outcome pool.toList as before after) := by
  induction n generalizing before with
  | zero =>
    apply recognizes_congr (recognizes_pure before)
    intro bs after
    constructor
    · intro h
      obtain ⟨rfl, rfl⟩ := h
      exact ⟨[], rfl, rfl, Attribute.legible_nil, outcome_nil.mpr rfl⟩
    · intro h
      obtain ⟨as, hl, rfl, -, ho⟩ := h
      obtain rfl := List.length_eq_zero_iff.mp hl
      exact ⟨rfl, outcome_nil.mp ho⟩
  | succ n ih =>
    apply recognizes_congr (recognizes_bind (recognizes_classAttribute pool before) ih)
    intro bs after
    constructor
    · intro h
      obtain ⟨middle, _, _, ⟨a, rfl, hn, hu⟩, ⟨as, rfl, rfl, hlegible, ho⟩, rfl⟩ := h
      exact ⟨a :: as, rfl, rfl, Attribute.legible_cons.mpr ⟨hn, told_of_updates hu, hlegible⟩,
        (outcome_cons hu).mpr ho⟩
    · intro h
      obtain ⟨as, hl, rfl, hlegible, ho⟩ := h
      cases as with
      | nil => cases hl
      | cons a as =>
        obtain ⟨hn, ht, hrest⟩ := Attribute.legible_cons.mp hlegible
        obtain ⟨middle, hu⟩ := exists_updates before ht
        exact ⟨middle, _, _, ⟨a, rfl, hn, hu⟩,
          ⟨as, by simpa using hl, rfl, hrest, (outcome_cons hu).mp ho⟩, rfl⟩

end JarIndex.ClassFile.Reader
