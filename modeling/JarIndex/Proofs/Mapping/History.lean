import JarIndex.Proofs.Mapping.Grouping

/-!
# What an aggregator holds

The state of an aggregator is determined by the records made in it. Each entry
point adds at most one record and keeps the state in step with the records; the
mappings at the end group the records by source file.
-/

set_option autoImplicit false

namespace JarIndex

open ClassFile (Header packageOf)
open Ordered (Sorted keys)

/-- The state of an aggregator after some records: both maps have the same ordered keys, and
at each key the set of all its classes and the package of the last one. -/
structure Reflects (a : Aggregator) (rs : List Record) : Prop where
  sorted : Sorted (keys a.classes)
  same_keys : keys a.packages = keys a.classes
  classes : ∀ s, Ordered.find? s a.classes =
    if Record.namesOf rs s = [] then none else some (Ordered.ofList (Record.namesOf rs s))
  packages : ∀ s, Ordered.find? s a.packages = (Record.namesOf rs s).getLast?.map packageOf

namespace Reflects

variable {a : Aggregator} {rs : List Record}

theorem empty : Reflects Aggregator.empty [] := by
  constructor
  · exact List.Pairwise.nil
  · rfl
  · intro s
    rfl
  · intro s
    rfl

theorem addClass (h : Reflects a rs) (c s : String) :
    Reflects (a.addClass c s) (rs ++ [⟨s, c⟩]) := by
  constructor
  · show Sorted (keys (Ordered.alter _ _ _))
    rw [Ordered.keys_alter]
    exact Ordered.sorted_insert s h.sorted
  · show keys (Ordered.alter _ _ _) = keys (Ordered.alter _ _ _)
    rw [Ordered.keys_alter, Ordered.keys_alter, h.same_keys]
  · intro t
    rw [Record.namesOf_append, Record.namesOf_singleton]
    by_cases hts : s = t
    · subst hts
      show Ordered.find? s (Ordered.alter _ _ _) = _
      rw [Ordered.find?_alter_self h.sorted, h.classes s, if_pos rfl, Ordered.ofList_snoc]
      by_cases hn : Record.namesOf rs s = []
      · simp [hn, Ordered.ofList]
      · simp [hn]
    · show Ordered.find? t (Ordered.alter _ _ _) = _
      rw [Ordered.find?_alter_other (Ne.symm hts), h.classes t, if_neg hts, List.append_nil]
  · intro t
    rw [Record.namesOf_append, Record.namesOf_singleton]
    by_cases hts : s = t
    · subst hts
      show Ordered.find? s (Ordered.alter _ _ _) = _
      have hs : Sorted (keys a.packages) := by
        rw [h.same_keys]
        exact h.sorted
      rw [Ordered.find?_alter_self hs, if_pos rfl]
      simp
    · show Ordered.find? t (Ordered.alter _ _ _) = _
      rw [Ordered.find?_alter_other (Ne.symm hts), h.packages t, if_neg hts, List.append_nil]

theorem add (h : Reflects a rs) (x : Header) :
    Reflects (a.add x).2 (rs ++ (Record.ofHeader x).toList) := by
  unfold Aggregator.add Record.ofHeader
  cases x.sourceFile with
  | none => simpa using h
  | some s => exact h.addClass x.className s

theorem addAll (h : Reflects a rs) (hs : List Header) :
    Reflects (a.addAll hs) (rs ++ hs.filterMap Record.ofHeader) := by
  induction hs generalizing a rs with
  | nil => simpa [Aggregator.addAll] using h
  | cons x hs ih =>
    have hx := ih (h.add x)
    have hr : (x :: hs).filterMap Record.ofHeader =
        (Record.ofHeader x).toList ++ hs.filterMap Record.ofHeader := by
      cases hx : Record.ofHeader x <;> simp [hx]
    rw [hr, ← List.append_assoc]
    exact hx

theorem mem_keys (h : Reflects a rs) (s : String) :
    s ∈ keys a.classes ↔ s ∈ rs.map Record.sourceFile := by
  rw [← Record.namesOf_ne_nil, ← not_iff_not, ← Ordered.find?_eq_none, h.classes s, not_not]
  split <;> simp_all

theorem names_of_mem (h : Reflects a rs) {s : String} {names : List String}
    (hm : (s, names) ∈ a.classes) :
    Record.namesOf rs s ≠ [] ∧ names = Ordered.ofList (Record.namesOf rs s) := by
  have hf := Ordered.find?_of_mem h.sorted hm
  rw [h.classes s] at hf
  split at hf
  · cases hf
  · rename_i hn
    cases hf
    exact ⟨hn, rfl⟩

theorem last_of_mem (h : Reflects a rs) {s : String} {names : List String}
    (hm : (s, names) ∈ a.classes) : ∃ c, (Record.namesOf rs s).getLast? = some c ∧
      Ordered.find? s a.packages = some (packageOf c) := by
  obtain ⟨hn, -⟩ := h.names_of_mem hm
  have hl := List.getLast?_eq_some_getLast hn
  exact ⟨_, hl, by rw [h.packages s, hl]; rfl⟩

theorem size_eq (h : Reflects a rs) : a.size = (rs.map Record.sourceFile).dedup.length := by
  have hp : (keys a.classes).Perm (rs.map Record.sourceFile).dedup := by
    apply (List.perm_ext_iff_of_nodup (Ordered.nodup_of_sorted h.sorted)
      (List.nodup_dedup _)).mpr
    intro s
    rw [List.mem_dedup, h.mem_keys s]
  rw [← hp.length_eq]
  simp [Aggregator.size, keys]

theorem finish (h : Reflects a rs) : Groups rs a.finish := by
  have hk : a.finish.map Mapping.sourceFile = keys a.classes := by
    simp [Aggregator.finish, keys, Function.comp_def]
  have hm : ∀ m ∈ a.finish, ∃ names, (m.sourceFile, names) ∈ a.classes ∧ m.classNames = names ∧
      m.package = (Ordered.find? m.sourceFile a.packages).getD (Aggregator.packageOfFirst names) := by
    intro m hm
    obtain ⟨⟨s, names⟩, he, rfl⟩ := List.mem_map.mp hm
    exact ⟨names, he, rfl, rfl⟩
  constructor
  · constructor
    · rw [hk]
      exact h.sorted
    · intro m hmem
      obtain ⟨names, he, hn, -⟩ := hm m hmem
      rw [hn, (h.names_of_mem he).2]
      exact Ordered.sorted_ofList _
  · intro s
    rw [hk]
    exact h.mem_keys s
  · intro m hmem c
    obtain ⟨names, he, hn, -⟩ := hm m hmem
    rw [hn, (h.names_of_mem he).2, Ordered.mem_ofList, Record.mem_namesOf]
  · intro m hmem
    obtain ⟨names, he, -, hp⟩ := hm m hmem
    obtain ⟨c, hc, hf⟩ := h.last_of_mem he
    exact ⟨c, hc, by rw [hp, hf]; rfl⟩

end Reflects

theorem Aggregator.finish_groups (hs : List Header) :
    Groups (hs.filterMap Record.ofHeader) (Aggregator.empty.addAll hs).finish :=
  (Reflects.empty.addAll hs).finish

/-- `package` is what stands before the last dot of `name`, or empty if there is no dot. -/
def IsPackage (name package : String) : Prop :=
  ('.' ∉ name.toList ∧ package = "") ∨
    ∃ last, '.' ∉ last ∧ name.toList = package.toList ++ '.' :: last

theorem dropWhile_to_dot (cs : List Char) :
    ('.' ∉ cs ∧ cs.dropWhile (· ≠ '.') = []) ∨
      ∃ front rest, '.' ∉ front ∧ cs = front ++ '.' :: rest ∧
        cs.dropWhile (· ≠ '.') = '.' :: rest := by
  induction cs with
  | nil => simp
  | cons c cs ih =>
    by_cases hc : c = '.'
    · subst hc
      exact Or.inr ⟨[], cs, by simp, rfl, by simp⟩
    · rw [List.dropWhile_cons_of_pos (by simpa using hc)]
      rcases ih with ⟨hn, hd⟩ | ⟨front, rest, hn, rfl, hd⟩
      · exact Or.inl ⟨by simp [hn, Ne.symm hc], hd⟩
      · exact Or.inr ⟨c :: front, rest, by simp [hn, Ne.symm hc], rfl, hd⟩

theorem packageOf_isPackage (name : String) : IsPackage name (packageOf name) := by
  unfold IsPackage packageOf
  rcases dropWhile_to_dot name.toList.reverse with ⟨hn, hd⟩ | ⟨last, rest, hn, hname, hd⟩
  · rw [hd]
    exact Or.inl ⟨by simpa using hn, rfl⟩
  · rw [hd]
    refine Or.inr ⟨last.reverse, by simpa using hn, ?_⟩
    rw [← List.reverse_reverse name.toList, hname]
    simp

namespace Aggregator

inductive Step where
  | add (h : Header)
  | addClass (className sourceFile : String)
  deriving DecidableEq, Repr

namespace Step

def apply (a : Aggregator) : Step → Aggregator
  | .add h => (a.add h).2
  | .addClass c s => a.addClass c s

def record? : Step → Option Record
  | .add h => Record.ofHeader h
  | .addClass c s => some ⟨s, c⟩

end Step

def after (steps : List Step) : Aggregator := steps.foldl Step.apply empty

def recorded (steps : List Step) : List Record := steps.filterMap Step.record?

theorem reflects_step {a : Aggregator} {rs : List Record} (h : Reflects a rs) (step : Step) :
    Reflects (step.apply a) (rs ++ step.record?.toList) := by
  cases step with
  | add x => exact h.add x
  | addClass c s => exact h.addClass c s

theorem reflects_after (steps : List Step) : Reflects (after steps) (recorded steps) := by
  induction steps using List.reverseRecOn with
  | nil => exact Reflects.empty
  | append_singleton steps step ih =>
    have ha : after (steps ++ [step]) = step.apply (after steps) := by simp [after]
    have hr : recorded (steps ++ [step]) = recorded steps ++ step.record?.toList := by
      unfold recorded
      cases hs : step.record? <;> simp [hs]
    rw [ha, hr]
    exact reflects_step ih step

/-- Every history of an aggregator leads to a state whose maps have the same keys and no empty
set of names, whose size counts the recorded source files, and whose mappings are the only
ones that group the records. -/
theorem history_grouped (steps : List Step) :
    (∀ s, s ∈ keys (after steps).packages ↔ s ∈ keys (after steps).classes) ∧
    (∀ e ∈ (after steps).classes,
      e.2 ≠ [] ∧ (Ordered.find? e.1 (after steps).packages).isSome) ∧
    (after steps).size = ((recorded steps).map Record.sourceFile).dedup.length ∧
    ((after steps).isEmpty = true ↔ (after steps).size = 0) ∧
    (∀ h : Header, (((after steps).add h).1 = true ↔ h.sourceFile.isSome) ∧
      (((after steps).add h).1 = false → ((after steps).add h).2 = after steps)) ∧
    (∀ ms, ms = (after steps).finish ↔ Groups (recorded steps) ms) ∧
    ∀ name, IsPackage name (packageOf name) := by
  have hr := reflects_after steps
  refine ⟨?_, ?_, hr.size_eq, ?_, ?_, ?_, packageOf_isPackage⟩
  · intro s
    rw [hr.same_keys]
  · intro hw he
    obtain ⟨s, names⟩ := hw
    obtain ⟨hn, rfl⟩ := hr.names_of_mem he
    obtain ⟨c, -, hf⟩ := hr.last_of_mem he
    refine ⟨?_, by rw [hf]; rfl⟩
    intro hnil
    obtain ⟨c, hc⟩ := List.exists_mem_of_ne_nil _ hn
    have hm := Ordered.mem_ofList.mpr hc
    rw [show Ordered.ofList _ = [] from hnil] at hm
    simp at hm
  · unfold isEmpty size
    rw [List.isEmpty_iff, List.length_eq_zero_iff]
  · intro h
    unfold add
    cases h.sourceFile <;> simp
  · intro ms
    constructor
    · intro hw
      subst hw
      exact hr.finish
    · intro h
      exact h.unique hr.finish

end Aggregator

end JarIndex
