import JarIndex.Mapping.Ordered
import Mathlib.Data.List.Dedup
import Mathlib.Data.List.Induction

/-!
# Laws of ordered sets and maps

Insertion keeps the strict order and adds one member. Altering a map keeps the
order of its keys, changes the value at one key and leaves the others alone. What
is in strict order is determined by its members.
-/

set_option autoImplicit false

namespace JarIndex.Ordered

def Sorted (ss : List String) : Prop := ss.Pairwise (· < ·)

theorem lt_of_not_lt {s t : String} (h : ¬ s < t) (hne : s ≠ t) : t < s := by
  by_cases hts : t < s
  · exact hts
  · exact absurd (String.le_antisymm (String.not_lt.mp hts) (String.not_lt.mp h)) hne

theorem nodup_of_sorted {ss : List String} (h : Sorted ss) : ss.Nodup := by
  apply List.Pairwise.imp _ h
  intro s t hst he
  rw [he] at hst
  exact String.lt_irrefl t hst

theorem sorted_ext {ss ts : List String} (hs : Sorted ss) (ht : Sorted ts)
    (h : ∀ s, s ∈ ss ↔ s ∈ ts) : ss = ts := by
  apply List.Perm.eq_of_pairwise _ hs ht
  · exact (List.perm_ext_iff_of_nodup (nodup_of_sorted hs) (nodup_of_sorted ht)).mpr h
  · intro a b _ _ hab hba
    exact absurd hba (String.lt_asymm hab)

theorem mem_insert {s t : String} {ss : List String} : t ∈ insert s ss ↔ t = s ∨ t ∈ ss := by
  induction ss with
  | nil => simp [insert]
  | cons u us ih =>
    rw [insert]
    split
    · simp
    · split
      · rename_i hsu
        simp [hsu]
      · rw [List.mem_cons, ih, List.mem_cons]
        tauto

theorem sorted_insert (s : String) {ss : List String} (h : Sorted ss) : Sorted (insert s ss) := by
  induction ss with
  | nil => simp [insert, Sorted]
  | cons u us ih =>
    obtain ⟨hu, hus⟩ := List.pairwise_cons.mp h
    rw [insert]
    split
    · rename_i hsu
      apply List.pairwise_cons.mpr ⟨_, h⟩
      intro t ht
      rcases List.mem_cons.mp ht with rfl | ht
      · exact hsu
      · exact String.lt_trans hsu (hu t ht)
    · rename_i hsu
      split
      · exact h
      · rename_i hne
        apply List.pairwise_cons.mpr ⟨_, ih hus⟩
        intro t ht
        rcases mem_insert.mp ht with rfl | ht
        · exact lt_of_not_lt hsu hne
        · exact hu t ht

theorem ofList_snoc (ss : List String) (s : String) : ofList (ss ++ [s]) = insert s (ofList ss) := by
  simp [ofList]

theorem mem_ofList {s : String} {ss : List String} : s ∈ ofList ss ↔ s ∈ ss := by
  induction ss using List.reverseRecOn with
  | nil => simp [ofList]
  | append_singleton ss t ih =>
    rw [ofList_snoc, mem_insert, ih, List.mem_append, List.mem_singleton, or_comm]

theorem sorted_ofList (ss : List String) : Sorted (ofList ss) := by
  induction ss using List.reverseRecOn with
  | nil => exact List.Pairwise.nil
  | append_singleton ss t ih =>
    rw [ofList_snoc]
    exact sorted_insert t ih

section Maps

variable {ν : Type} {key k : String} {v : ν} {value : Option ν → ν} {l : List (String × ν)}

def keys (l : List (String × ν)) : List String := l.map Prod.fst

theorem keys_alter : keys (alter key value l) = insert key (keys l) := by
  induction l with
  | nil => rfl
  | cons e rest ih =>
    obtain ⟨k, v⟩ := e
    rw [alter]
    show _ = insert key (k :: keys rest)
    rw [insert]
    split
    · rfl
    · split
      · rfl
      · show k :: keys (alter key value rest) = _
        rw [ih]

theorem find?_eq_none : find? k l = none ↔ k ∉ keys l := by
  induction l with
  | nil => simp [find?, keys]
  | cons e rest ih =>
    obtain ⟨j, v⟩ := e
    rw [find?]
    show _ ↔ k ∉ j :: keys rest
    split
    · rename_i hkj
      simp [hkj]
    · rename_i hkj
      rw [ih, List.mem_cons, not_or]
      exact ⟨fun h => ⟨hkj, h⟩, fun h => h.2⟩

theorem find?_of_mem (hl : Sorted (keys l)) (h : (k, v) ∈ l) : find? k l = some v := by
  induction l with
  | nil => simp at h
  | cons e rest ih =>
    obtain ⟨j, w⟩ := e
    obtain ⟨hj, hrest⟩ := List.pairwise_cons.mp hl
    rw [find?]
    rcases List.mem_cons.mp h with h | h
    · cases h
      rw [if_pos rfl]
    · have hjk : j < k := hj k (List.mem_map_of_mem h)
      have hne : k ≠ j := by
        intro he
        rw [he] at hjk
        exact String.lt_irrefl j hjk
      rw [if_neg hne]
      exact ih hrest h

theorem find?_alter_other (h : k ≠ key) : find? k (alter key value l) = find? k l := by
  induction l with
  | nil => simp [alter, find?, h]
  | cons e rest ih =>
    obtain ⟨j, w⟩ := e
    rw [alter]
    split
    · rw [find?, if_neg h]
    · split
      · rename_i hj
        subst hj
        rw [find?, find?, if_neg h, if_neg h]
      · rw [find?, find?, ih]

theorem find?_alter_self (hl : Sorted (keys l)) :
    find? key (alter key value l) = some (value (find? key l)) := by
  induction l with
  | nil => simp [alter, find?]
  | cons e rest ih =>
    obtain ⟨j, w⟩ := e
    obtain ⟨hj, hrest⟩ := List.pairwise_cons.mp hl
    rw [alter]
    split
    · rename_i hlt
      have hnone : find? key ((j, w) :: rest) = none := by
        rw [find?_eq_none]
        intro hm
        rcases List.mem_cons.mp hm with he | hm
        · rw [he] at hlt
          exact String.lt_irrefl j hlt
        · exact String.lt_asymm hlt (hj key hm)
      rw [hnone, find?, if_pos rfl]
    · split
      · rename_i he
        rw [find?, find?, if_pos he, if_pos he]
      · rename_i hne
        rw [find?, find?, if_neg hne, if_neg hne, ih hrest]

end Maps

end JarIndex.Ordered
