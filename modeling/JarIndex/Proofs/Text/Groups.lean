import JarIndex.Proofs.Text.Modified

/-!
# Groups of modified UTF-8

The groups are the bit patterns `0xxxxxxx`, `110xxxxx 10xxxxxx` and
`1110xxxx 10xxxxxx 10xxxxxx`. Units are read exactly from bytes that split into
groups; all other bytes are stuck, behind some groups, at a byte that starts none.
Together with text in standard UTF-8 this is all that is read, and what can be read
in both ways is the same text.
-/

set_option autoImplicit false

namespace JarIndex.ModifiedUtf8

/-- A group by the bits that it carries; a unit may be in a longer one than it needs. -/
inductive Group where
  | one (low : BitVec 7)
  | two (high : BitVec 5) (low : BitVec 6)
  | three (high : BitVec 4) (middle low : BitVec 6)

namespace Group

def continuation (low : BitVec 6) : UInt8 := .ofBitVec (0b10#2 ++ low)

def bytes : Group → Bytes
  | .one low => [.ofBitVec (0b0#1 ++ low)]
  | .two high low => [.ofBitVec (0b110#3 ++ high), continuation low]
  | .three high middle low =>
    [.ofBitVec (0b1110#4 ++ high), continuation middle, continuation low]

def unit : Group → UInt16
  | .one low => .ofBitVec (0#9 ++ low)
  | .two high low => .ofBitVec (0#5 ++ high ++ low)
  | .three high middle low => .ofBitVec (high ++ middle ++ low)

end Group

def Grouped (bs : Bytes) (us : List UInt16) : Prop :=
  ∃ gs : List Group, bs = gs.flatMap Group.bytes ∧ us = gs.map Group.unit

/-- That there are bytes and no group starts them: a continuation byte is first, or a byte that
lacks a continuation, or one that is first in no group. -/
inductive Stuck : Bytes → Prop where
  | stray {a : UInt8} {as : Bytes} (first : isContinuation a = true) : Stuck (a :: as)
  | two {a : UInt8} {as : Bytes} (first : 0xC0 ≤ a ∧ a < 0xE0)
      (missing : ∀ b, as.head? = some b → isContinuation b = false) : Stuck (a :: as)
  | three {a : UInt8} {as : Bytes} (first : 0xE0 ≤ a ∧ a < 0xF0)
      (missing : ∀ b c cs, as = b :: c :: cs → ¬ (isContinuation b = true ∧
        isContinuation c = true)) : Stuck (a :: as)
  | none {a : UInt8} {as : Bytes} (first : 0xF0 ≤ a) : Stuck (a :: as)

section Bits

variable {m n : Nat}

theorem toNat_append (x : BitVec m) (y : BitVec n) :
    (x ++ y).toNat = x.toNat * 2 ^ n + y.toNat := by
  rw [BitVec.toNat_append, ← Nat.shiftLeft_add_eq_or_of_lt y.isLt, Nat.shiftLeft_eq]

theorem exists_append {v : Nat} (tag : BitVec m) (h : v / 2 ^ n = tag.toNat) :
    ∃ bits : BitVec n, (tag ++ bits).toNat = v := by
  refine ⟨BitVec.ofNat n v, ?_⟩
  rw [toNat_append, BitVec.toNat_ofNat, ← h, Nat.div_add_mod']

theorem ofBitVec_eq (bits : BitVec 8) : UInt8.ofBitVec bits = UInt8.ofNat bits.toNat := by
  apply UInt8.toNat.inj
  rw [UInt8.toNat_ofBitVec, UInt8.toNat_ofNat', Nat.mod_eq_of_lt bits.isLt]

theorem ofBitVec_eq_unit (bits : BitVec 16) :
    UInt16.ofBitVec bits = UInt16.ofNat bits.toNat := by
  apply UInt16.toNat.inj
  rw [UInt16.toNat_ofBitVec, UInt16.toNat_ofNat', Nat.mod_eq_of_lt bits.isLt]

theorem continuation_eq (low : BitVec 6) :
    Group.continuation low = UInt8.ofNat (0x80 + low.toNat) := by
  rw [Group.continuation, ofBitVec_eq, toNat_append]
  rfl

theorem one_eq (low : BitVec 7) : (Group.one low).bytes = [UInt8.ofNat low.toNat] ∧
    (Group.one low).unit = UInt16.ofNat low.toNat := by
  rw [Group.bytes, Group.unit, ofBitVec_eq, ofBitVec_eq_unit, toNat_append, toNat_append]
  simp

theorem two_eq (high : BitVec 5) (low : BitVec 6) :
    (Group.two high low).bytes =
      [UInt8.ofNat (0xC0 + high.toNat), UInt8.ofNat (0x80 + low.toNat)] ∧
    (Group.two high low).unit = UInt16.ofNat (high.toNat * 64 + low.toNat) := by
  rw [Group.bytes, Group.unit, ofBitVec_eq, ofBitVec_eq_unit, continuation_eq, toNat_append,
    toNat_append, toNat_append]
  simp

theorem three_eq (high : BitVec 4) (middle low : BitVec 6) :
    (Group.three high middle low).bytes = [UInt8.ofNat (0xE0 + high.toNat),
      UInt8.ofNat (0x80 + middle.toNat), UInt8.ofNat (0x80 + low.toNat)] ∧
    (Group.three high middle low).unit =
      UInt16.ofNat (high.toNat * 4096 + middle.toNat * 64 + low.toNat) := by
  have hu : (high.toNat * 64 + middle.toNat) * 64 + low.toNat =
      high.toNat * 4096 + middle.toNat * 64 + low.toNat := by omega
  rw [Group.bytes, Group.unit, ofBitVec_eq, ofBitVec_eq_unit, continuation_eq, continuation_eq,
    toNat_append, toNat_append, toNat_append, ← hu]
  simp

end Bits

theorem units_group (g : Group) (bs : Bytes) :
    units (g.bytes ++ bs) = (units bs).map (g.unit :: ·) := by
  cases g with
  | one low =>
    rw [(one_eq low).1, (one_eq low).2]
    exact units_one bs low.isLt
  | two high low =>
    rw [(two_eq high low).1, (two_eq high low).2]
    exact units_two bs high.isLt low.isLt
  | three high middle low =>
    rw [(three_eq high middle low).1, (three_eq high middle low).2]
    exact units_three bs high.isLt middle.isLt low.isLt

theorem units_groups (gs : List Group) (bs : Bytes) :
    units (gs.flatMap Group.bytes ++ bs) = (units bs).map (gs.map Group.unit ++ ·) := by
  induction gs with
  | nil => simp
  | cons g gs ih =>
    rw [List.flatMap_cons, List.append_assoc, units_group, ih, Option.map_map]
    rfl

theorem units_stuck {bs : Bytes} (h : Stuck bs) : units bs = none := by
  rw [units.eq_def]
  cases h with
  | stray first =>
    simp only [isContinuation, Bool.and_eq_true, decide_eq_true_eq, UInt8.le_iff_toNat_le,
      UInt8.lt_iff_toNat_lt, UInt8.reduceToNat] at first ⊢
    rw [if_neg (by omega), if_pos first.2]
  | @two a as first missing =>
    simp only [UInt8.le_iff_toNat_le, UInt8.lt_iff_toNat_lt, UInt8.reduceToNat] at first ⊢
    rw [if_neg (by omega), if_neg (by omega), if_pos first.2]
    cases as with
    | nil => rfl
    | cons b bs => simp [missing b rfl]
  | @three a as first missing =>
    simp only [UInt8.le_iff_toNat_le, UInt8.lt_iff_toNat_lt, UInt8.reduceToNat] at first ⊢
    rw [if_neg (by omega), if_neg (by omega), if_neg (by omega), if_pos first.2]
    split
    · rename_i b c cs
      rw [if_neg]
      rw [Bool.and_eq_true]
      exact missing b c cs rfl
    · rfl
  | none first =>
    simp only [UInt8.le_iff_toNat_le, UInt8.lt_iff_toNat_lt, UInt8.reduceToNat] at first ⊢
    rw [if_neg (by omega), if_neg (by omega), if_neg (by omega), if_neg (by omega)]

section Splitting

variable {a b : UInt8}

theorem exists_continuation (h : isContinuation b = true) :
    ∃ low : BitVec 6, Group.continuation low = b := by
  simp [isContinuation, UInt8.le_iff_toNat_le, UInt8.lt_iff_toNat_lt] at h
  obtain ⟨low, hl⟩ := exists_append (n := 6) (v := b.toNat) 0b10#2 (by simp; omega)
  exact ⟨low, UInt8.toNat.inj hl⟩

theorem exists_one (h : a < 0x80) : ∃ low : BitVec 7, UInt8.ofBitVec (0b0#1 ++ low) = a := by
  simp [UInt8.lt_iff_toNat_lt] at h
  obtain ⟨low, hl⟩ := exists_append (n := 7) (v := a.toNat) 0b0#1 (by simp; omega)
  exact ⟨low, UInt8.toNat.inj hl⟩

theorem exists_two (h : 0xC0 ≤ a ∧ a < 0xE0) :
    ∃ high : BitVec 5, UInt8.ofBitVec (0b110#3 ++ high) = a := by
  simp [UInt8.le_iff_toNat_le, UInt8.lt_iff_toNat_lt] at h
  obtain ⟨high, hh⟩ := exists_append (n := 5) (v := a.toNat) 0b110#3 (by simp; omega)
  exact ⟨high, UInt8.toNat.inj hh⟩

theorem exists_three (h : 0xE0 ≤ a ∧ a < 0xF0) :
    ∃ high : BitVec 4, UInt8.ofBitVec (0b1110#4 ++ high) = a := by
  simp [UInt8.le_iff_toNat_le, UInt8.lt_iff_toNat_lt] at h
  obtain ⟨high, hh⟩ := exists_append (n := 4) (v := a.toNat) 0b1110#4 (by simp; omega)
  exact ⟨high, UInt8.toNat.inj hh⟩

theorem first_cases (a : UInt8) : a < 0x80 ∨ isContinuation a = true ∨ (0xC0 ≤ a ∧ a < 0xE0) ∨
    (0xE0 ≤ a ∧ a < 0xF0) ∨ 0xF0 ≤ a := by
  simp [isContinuation, UInt8.le_iff_toNat_le, UInt8.lt_iff_toNat_lt]
  omega

theorem stuck_or_group (a : UInt8) (as : Bytes) :
    Stuck (a :: as) ∨ ∃ (g : Group) (rest : Bytes), a :: as = g.bytes ++ rest := by
  rcases first_cases a with h1 | hs | h2 | h3 | h4
  · obtain ⟨low, rfl⟩ := exists_one h1
    exact Or.inr ⟨.one low, as, rfl⟩
  · exact Or.inl (.stray hs)
  · by_cases hc : ∀ b, as.head? = some b → isContinuation b = false
    · exact Or.inl (.two h2 hc)
    · simp only [not_forall, Bool.not_eq_false] at hc
      obtain ⟨b, hb, hl⟩ := hc
      obtain ⟨bs, rfl⟩ := List.head?_eq_some_iff.mp hb
      obtain ⟨high, rfl⟩ := exists_two h2
      obtain ⟨low, rfl⟩ := exists_continuation hl
      exact Or.inr ⟨.two high low, bs, rfl⟩
  · by_cases hc : ∀ b c cs, as = b :: c :: cs → ¬ (isContinuation b = true ∧
        isContinuation c = true)
    · exact Or.inl (.three h3 hc)
    · simp only [not_forall, not_not] at hc
      obtain ⟨b, c, cs, rfl, hm, hl⟩ := hc
      obtain ⟨high, rfl⟩ := exists_three h3
      obtain ⟨middle, rfl⟩ := exists_continuation hm
      obtain ⟨low, rfl⟩ := exists_continuation hl
      exact Or.inr ⟨.three high middle low, cs, rfl⟩
  · exact Or.inl (.none h4)

theorem exists_groups (bs : Bytes) : ∃ (gs : List Group) (rest : Bytes),
    bs = gs.flatMap Group.bytes ++ rest ∧ (rest = [] ∨ Stuck rest) := by
  induction h : bs.length using Nat.strongRecOn generalizing bs with
  | ind n ih =>
    cases bs with
    | nil => exact ⟨[], [], rfl, Or.inl rfl⟩
    | cons a as =>
      rcases stuck_or_group a as with hs | ⟨g, rest, he⟩
      · exact ⟨[], a :: as, rfl, Or.inr hs⟩
      have hg : 0 < g.bytes.length := by cases g <;> simp [Group.bytes]
      rw [he, List.length_append] at h
      obtain ⟨gs, stuck, hr, hs⟩ := ih rest.length (by omega) rest rfl
      refine ⟨g :: gs, stuck, ?_, hs⟩
      rw [he, List.flatMap_cons, List.append_assoc, ← hr]

end Splitting

theorem units_eq_some_iff {bs : Bytes} {us : List UInt16} :
    units bs = some us ↔ Grouped bs us := by
  constructor
  · intro h
    obtain ⟨gs, rest, rfl, rfl | hs⟩ := exists_groups bs
    · rw [units_groups, units, Option.map_some, List.append_nil] at h
      exact ⟨gs, List.append_nil _, (Option.some.inj h).symm⟩
    · rw [units_groups, units_stuck hs] at h
      cases h
  · intro h
    obtain ⟨gs, rfl, rfl⟩ := h
    have hg := units_groups gs []
    rwa [units, Option.map_some, List.append_nil, List.append_nil] at hg

theorem units_eq_none_iff {bs : Bytes} : units bs = none ↔
    ∃ (gs : List Group) (rest : Bytes), bs = gs.flatMap Group.bytes ++ rest ∧ Stuck rest := by
  constructor
  · intro h
    obtain ⟨gs, rest, rfl, rfl | hs⟩ := exists_groups bs
    · rw [units_groups, units] at h
      cases h
    · exact ⟨gs, rest, rfl, hs⟩
  · intro h
    obtain ⟨gs, rest, rfl, hs⟩ := h
    rw [units_groups, units_stuck hs]
    rfl

section Overlap

theorem units_encode (cs : List Char) : units (cs.flatMap String.utf8EncodeChar) =
    if cs.all (·.toNat ≤ 0xFFFF) then some (Utf16.encode cs) else none := by
  induction cs with
  | nil => rfl
  | cons c cs ih =>
    rw [List.flatMap_cons, units_encodeChar, ih, List.all_cons]
    by_cases hc : c.toNat < 0x10000
    · have hc' : c.toNat ≤ 0xFFFF := by omega
      have he : Utf16.encode (c :: cs) = UInt16.ofNat c.toNat :: Utf16.encode cs := by
        rw [Utf16.encode, List.flatMap_cons, Utf16.encodeChar, if_pos hc]
        rfl
      rw [if_pos hc, he]
      simp only [hc', decide_true, Bool.true_and]
      split <;> rfl
    · have hc' : ¬ c.toNat ≤ 0xFFFF := by omega
      rw [if_neg hc]
      simp only [hc', decide_false, Bool.false_and, Bool.false_eq_true, if_false]

theorem decodeUnits_utf8Bytes (s : String) : decodeUnits (utf8Bytes s) =
    if s.toList.all (·.toNat ≤ 0xFFFF) then some s else none := by
  rw [decodeUnits, Bytes.utf8Bytes_eq, units_encode]
  split
  · rw [Option.bind_some, Utf16.decode_encode, Option.map_some, String.ofList_toList]
  · rfl

theorem decodeUnits_eq_some_iff {b : Bytes} {s : String} : decodeUnits b = some s ↔
    ∃ us, Grouped b us ∧ ¬ Utf16.Unpaired us ∧ Utf16.encode s.toList = us := by
  unfold decodeUnits
  simp only [Option.map_eq_some_iff, Option.bind_eq_some_iff, units_eq_some_iff]
  constructor
  · intro h
    obtain ⟨cs, ⟨us, hg, hd⟩, rfl⟩ := h
    refine ⟨us, hg, ?_, ?_⟩
    · rw [← Utf16.decode_eq_none_iff, hd]
      exact Option.some_ne_none cs
    · rw [String.toList_ofList]
      exact Utf16.decode_eq_some_iff.mp hd
  · intro h
    obtain ⟨us, hg, -, he⟩ := h
    exact ⟨s.toList, ⟨us, hg, Utf16.decode_eq_some_iff.mpr he⟩, String.ofList_toList⟩

theorem decodeUnits_eq_none_iff {b : Bytes} : decodeUnits b = none ↔
    (∃ (gs : List Group) (rest : Bytes), b = gs.flatMap Group.bytes ++ rest ∧ Stuck rest) ∨
      ∃ us, Grouped b us ∧ Utf16.Unpaired us := by
  rw [← units_eq_none_iff]
  simp only [← units_eq_some_iff, ← Utf16.decode_eq_none_iff]
  unfold decodeUnits
  cases units b <;> simp

theorem decodeUnits_agrees {b : Bytes} {s t : String} (hs : Bytes.utf8? b = some s)
    (ht : decodeUnits b = some t) : s = t := by
  rw [← Bytes.utf8?_eq_some.mp hs, decodeUnits_utf8Bytes] at ht
  split at ht
  · exact Option.some.inj ht
  · cases ht

end Overlap

/-- Bytes are read as `s` exactly if they are `s` in standard UTF-8 or groups whose units are
well-formed and encode `s`. In groups alone, text in standard UTF-8 is read as it is or, if it has
a character above U+FFFF, not at all, so no bytes have two readings. Every refusal of bytes that
are not in standard UTF-8 is for a byte that starts no group or for an unpaired surrogate. -/
theorem decode_domain :
    (∀ b s, decode b = some s ↔ utf8Bytes s = b ∨
      ∃ us, Grouped b us ∧ ¬ Utf16.Unpaired us ∧ Utf16.encode s.toList = us) ∧
    (∀ s, decodeUnits (utf8Bytes s) =
      if s.toList.all (·.toNat ≤ 0xFFFF) then some s else none) ∧
    (∀ b s t, Bytes.utf8? b = some s → decodeUnits b = some t → s = t) ∧
    ∀ b, decode b = none ↔ (∀ s, utf8Bytes s ≠ b) ∧
      ((∃ (gs : List Group) (rest : Bytes), b = gs.flatMap Group.bytes ++ rest ∧ Stuck rest) ∨
        ∃ us, Grouped b us ∧ Utf16.Unpaired us) := by
  refine ⟨?_, decodeUnits_utf8Bytes, fun b s t => decodeUnits_agrees, ?_⟩
  · intro b s
    rw [← Bytes.utf8?_eq_some, ← decodeUnits_eq_some_iff]
    unfold decode
    cases ht : Bytes.utf8? b with
    | none => simp
    | some t =>
      constructor
      · exact Or.inl
      · intro h
        rcases h with h | h
        · exact h
        · rw [decodeUnits_agrees ht h]
  · intro b
    simp only [ne_eq, ← Bytes.utf8?_eq_some, ← decodeUnits_eq_none_iff]
    unfold decode
    cases Bytes.utf8? b <;> simp

example : Stuck [0x80] ∧ Stuck [0xC3, 0x41] ∧ Stuck [0xED, 0xA0] ∧ Stuck [0xF0, 0x9F] :=
  ⟨.stray rfl, .two (by decide) (by simp [isContinuation]), .three (by decide) (by simp),
    .none (by decide)⟩

end JarIndex.ModifiedUtf8
