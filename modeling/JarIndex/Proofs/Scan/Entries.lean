import JarIndex.Scan

/-!
# The entries of an archive and their order

An entry is a member with its number in the directory. Entries are listed by
number; for a canonical scan they are sorted by name, and those with the same
name keep the order of their numbers.
-/

set_option autoImplicit false

namespace JarIndex.Scan

open Archive (Member Fault)

abbrev Entry := Member × Nat

def isListed (bs : Bytes) (e : Entry) : Bool :=
  (e.1.dataOffset bs).toOption.isSome && isClassEntry e.1

def lost? (bs : Bytes) (e : Entry) : Option (Nat × Fault) :=
  match e.1.dataOffset bs with
  | .error f => some (e.2, f)
  | .ok _ => none

section Members

variable {bs : Bytes} {m : Member} {i : Nat}

theorem located_iff : (m.dataOffset bs).toOption.isSome = true ↔
    ∃ start, m.dataOffset bs = .ok start := by
  cases m.dataOffset bs <;> simp [Except.toOption]

theorem isListed_located (h : ∃ start, m.dataOffset bs = .ok start) :
    isListed bs (m, i) = isClassEntry m := by
  obtain ⟨start, hs⟩ := h
  simp [isListed, hs, Except.toOption]

theorem isListed_lost {f : Fault} (h : m.dataOffset bs = .error f) :
    isListed bs (m, i) = false := by
  simp [isListed, h, Except.toOption]

theorem isListed_resource (h : ¬ classSuffix.toList <:+ m.name.toList) :
    isListed bs (m, i) = false := by
  have hn : isClassEntry m = false := by
    rw [isClassEntry, ← Bool.not_eq_true, List.isSuffixOf_iff_suffix]
    exact h
  simp [isListed, hn]

theorem lost?_located (h : ∃ start, m.dataOffset bs = .ok start) : lost? bs (m, i) = none := by
  obtain ⟨start, hs⟩ := h
  simp [lost?, hs]

theorem lost?_lost {f : Fault} (h : m.dataOffset bs = .error f) :
    lost? bs (m, i) = some (i, f) := by
  simp [lost?, h]

end Members

def classEntriesFrom (bs : Bytes) (n : Nat) (ms : List Member) : List Entry :=
  (ms.zipIdx n).filter (isListed bs)

def lostFrom (bs : Bytes) (n : Nat) (ms : List Member) : List (Nat × Fault) :=
  (ms.zipIdx n).filterMap (lost? bs)

def unlisted (path : String) (l : Nat × Fault) : Diagnostic :=
  .unreadEntry path ("#" ++ toString l.1) l.2

theorem listed_eq (path : String) (bs : Bytes) (n : Nat) (ms : List Member) :
    listed path bs n ms =
      ((classEntriesFrom bs n ms).map Prod.fst, (lostFrom bs n ms).map (unlisted path)) := by
  induction ms generalizing n with
  | nil => rfl
  | cons m ms ih =>
    unfold classEntriesFrom lostFrom at *
    cases hd : m.dataOffset bs with
    | error f =>
      have he : isListed bs (m, n) = false := isListed_lost hd
      have hl : lost? bs (m, n) = some (n, f) := lost?_lost hd
      simp [listed, ih (n + 1), hd, he, hl, unlisted]
    | ok start =>
      have he : isListed bs (m, n) = isClassEntry m := isListed_located ⟨start, hd⟩
      have hl : lost? bs (m, n) = none := lost?_located ⟨start, hd⟩
      by_cases hc : isClassEntry m <;> simp [listed, ih (n + 1), hd, he, hl, hc]

theorem mem_classEntries {bs : Bytes} {ms : List Member} {m : Member} {i : Nat} :
    (m, i) ∈ classEntriesFrom bs 0 ms ↔
      ms[i]? = some m ∧ (∃ start, m.dataOffset bs = .ok start) ∧ isClassEntry m = true := by
  unfold classEntriesFrom isListed
  rw [List.mem_filter, List.mem_zipIdx_iff_getElem?, Bool.and_eq_true, located_iff]

theorem mem_lost {bs : Bytes} {ms : List Member} {i : Nat} {f : Fault} :
    (i, f) ∈ lostFrom bs 0 ms ↔ ∃ m, ms[i]? = some m ∧ m.dataOffset bs = .error f := by
  unfold lostFrom lost?
  rw [List.mem_filterMap]
  constructor
  · intro h
    obtain ⟨⟨m, j⟩, hm, hf⟩ := h
    cases hd : m.dataOffset bs with
    | error g =>
      rw [hd] at hf
      cases hf
      exact ⟨m, List.mem_zipIdx_iff_getElem?.mp hm, hd⟩
    | ok start =>
      rw [hd] at hf
      cases hf
  · intro h
    obtain ⟨m, hm, hf⟩ := h
    refine ⟨(m, i), List.mem_zipIdx_iff_getElem?.mpr hm, ?_⟩
    rw [hf]

theorem zipIdx_ordered (ms : List Member) (n : Nat) :
    (ms.zipIdx n).Pairwise fun a b => a.2 < b.2 := by
  have h := List.pairwise_lt_range' (s := n) (n := ms.length)
  rw [← List.zipIdx_map_snd] at h
  exact List.pairwise_map.mp h

theorem classEntries_ordered (bs : Bytes) (ms : List Member) :
    (classEntriesFrom bs 0 ms).Pairwise fun a b => a.2 < b.2 :=
  (zipIdx_ordered ms 0).filter _

theorem lost_ordered (bs : Bytes) (ms : List Member) :
    (lostFrom bs 0 ms).Pairwise fun a b => a.1 < b.1 := by
  apply List.Pairwise.filterMap _ _ (zipIdx_ordered ms 0)
  intro a b hab x hx y hy
  have hn : ∀ {e : Entry} {l : Nat × Fault}, lost? bs e = some l → l.1 = e.2 := by
    intro e l h
    unfold lost? at h
    split at h <;> cases h
    rfl
  rw [hn hx, hn hy]
  exact hab

def Precedes (order : EntryOrder) (a b : Entry) : Prop :=
  match order with
  | .native => a.2 < b.2
  | .canonical => a.1.name < b.1.name ∨ a.1.name = b.1.name ∧ a.2 < b.2

theorem precedes_asymm {order : EntryOrder} {a b : Entry} (h : Precedes order a b) :
    ¬ Precedes order b a := by
  intro h'
  cases order with
  | native => exact Nat.lt_asymm h h'
  | canonical =>
    rcases h with h | ⟨he, h⟩ <;> rcases h' with h' | ⟨he', h'⟩
    · exact String.lt_asymm h h'
    · exact String.lt_irrefl _ (he' ▸ h)
    · exact String.lt_irrefl _ (he ▸ h')
    · omega

section ByName

variable {α : Type} (name : α → String)

def byName (a b : α) : Bool := decide (name a ≤ name b)

theorem byName_trans (a b c : α) (hab : byName name a b) (hbc : byName name b c) :
    byName name a c := by
  simp only [byName, decide_eq_true_eq] at *
  exact String.le_trans hab hbc

theorem byName_total (a b : α) : byName name a b || byName name b a := by
  simp only [byName, Bool.or_eq_true, decide_eq_true_eq]
  exact String.le_total _ _

end ByName

def notAfter (a b : Entry) : Bool := decide (a.1.name ≤ b.1.name)

def inOrder (order : EntryOrder) (es : List Entry) : List Entry :=
  match order with
  | .native => es
  | .canonical => es.mergeSort notAfter

theorem arranged_map_fst (order : EntryOrder) (es : List Entry) :
    arranged order (es.map Prod.fst) = (inOrder order es).map Prod.fst := by
  cases order with
  | native => rfl
  | canonical =>
    apply (List.map_mergeSort _).symm
    intro a _ b _
    rfl

theorem inOrder_perm (order : EntryOrder) (es : List Entry) : (inOrder order es).Perm es := by
  cases order with
  | native => exact List.Perm.refl es
  | canonical => exact List.mergeSort_perm es notAfter

theorem notAfter_trans (a b c : Entry) : notAfter a b → notAfter b c → notAfter a c :=
  byName_trans (fun e : Entry => e.1.name) a b c

theorem notAfter_total (a b : Entry) : notAfter a b || notAfter b a :=
  byName_total (fun e : Entry => e.1.name) a b

theorem number_lt_of_place_lt {es : List Entry} (h : es.Pairwise fun a b => a.2 < b.2)
    {a b : Entry} {i j : Nat} (ha : (a, i) ∈ es.zipIdx) (hb : (b, j) ∈ es.zipIdx) (hij : i < j) :
    a.2 < b.2 := by
  obtain ⟨hi, hae⟩ := List.getElem?_eq_some_iff.mp (List.mem_zipIdx_iff_getElem?.mp ha)
  obtain ⟨hj, hbe⟩ := List.getElem?_eq_some_iff.mp (List.mem_zipIdx_iff_getElem?.mp hb)
  show (a, i).1.2 < (b, j).1.2
  rw [← hae, ← hbe]
  exact List.pairwise_iff_getElem.mp h i j hi hj hij

theorem inOrder_precedes (order : EntryOrder) {es : List Entry}
    (h : es.Pairwise fun a b => a.2 < b.2) : (inOrder order es).Pairwise (Precedes order) := by
  cases order with
  | native => exact h
  | canonical =>
    -- The sort is that of the entries with their places, where no two are alike.
    show (es.mergeSort notAfter).Pairwise _
    rw [← List.mergeSort_zipIdx, List.pairwise_map]
    have hperm := List.mergeSort_perm es.zipIdx (List.zipIdxLE notAfter)
    have hsorted := List.pairwise_mergeSort (List.zipIdxLE_trans notAfter_trans)
      (List.zipIdxLE_total notAfter_total) es.zipIdx
    have hplaces : (es.zipIdx.mergeSort (List.zipIdxLE notAfter)).Pairwise
        fun a b => a.2 ≠ b.2 := by
      apply List.pairwise_map.mp
      apply (hperm.map Prod.snd).nodup_iff.mpr
      rw [List.zipIdx_map_snd]
      exact List.nodup_range'
    apply (hsorted.and hplaces).imp_of_mem
    intro hw he ha hb hp
    obtain ⟨a, i⟩ := hw
    obtain ⟨b, j⟩ := he
    obtain ⟨hle, hne⟩ := hp
    rw [hperm.mem_iff] at ha hb
    simp only [List.zipIdxLE, notAfter, decide_eq_true_eq] at hle
    split at hle
    · rename_i hab
      by_cases hba : b.1.name ≤ a.1.name
      · rw [if_pos hba, decide_eq_true_eq] at hle
        exact Or.inr ⟨String.le_antisymm hab hba,
          number_lt_of_place_lt h ha hb (Nat.lt_of_le_of_ne hle hne)⟩
      · exact Or.inl (String.not_le.mp hba)
    · cases hle

end JarIndex.Scan
