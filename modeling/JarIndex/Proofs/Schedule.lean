import JarIndex.Proofs.Run
import JarIndex.Schedule

/-!
# Values do not depend on the order of completion

A slot holds the value of its task once the task is done, however often and
whenever the others are. When all tasks are done the slots hold all values.
-/

set_option autoImplicit false

namespace JarIndex.Schedule

variable {α : Type}

theorem length_foldl_set (value : Nat → α) (completion : List Nat) (slots : List α) :
    (completion.foldl (fun slots i => slots.set i (value i)) slots).length = slots.length := by
  induction completion generalizing slots with
  | nil => rfl
  | cons j completion ih =>
    rw [List.foldl_cons, ih, List.length_set]

theorem getElem?_foldl_set (value : Nat → α) (completion : List Nat) (slots : List α) (i : Nat)
    (hi : i < slots.length) :
    (completion.foldl (fun slots i => slots.set i (value i)) slots)[i]? =
      if i ∈ completion then some (value i) else slots[i]? := by
  induction completion generalizing slots with
  | nil => simp
  | cons j completion ih =>
    rw [List.foldl_cons, ih (slots.set j (value j)) (by rw [List.length_set]; exact hi)]
    by_cases hc : i ∈ completion
    · simp [hc]
    · by_cases hj : j = i
      · subst hj
        simp [hc, hi]
      · simp [hc, hj, Ne.symm hj]

theorem length_fill (tasks : List (Run α)) (completion : List Nat) :
    (fill tasks completion).length = tasks.length := by
  unfold fill
  rw [length_foldl_set (fun i => tasks[i]?.bind Run.value?), List.length_replicate]

theorem getElem?_fill (tasks : List (Run α)) (completion : List Nat) (i : Nat)
    (hi : i < tasks.length) : (fill tasks completion)[i]? =
      some (if i ∈ completion then tasks[i].value? else none) := by
  unfold fill
  rw [getElem?_foldl_set (fun i => tasks[i]?.bind Run.value?) _ _ _ (by simpa using hi)]
  by_cases hc : i ∈ completion <;> simp [hc, hi]

theorem fill_eq (tasks : List (Run α)) (completion : List Nat)
    (h : ∀ i < tasks.length, i ∈ completion) : fill tasks completion = tasks.map Run.value? := by
  apply List.ext_getElem?
  intro i
  by_cases hi : i < tasks.length
  · rw [getElem?_fill tasks completion i hi, if_pos (h i hi)]
    simp [hi]
  · have hn := Nat.le_of_not_lt hi
    rw [List.getElem?_eq_none (by rw [length_fill]; exact hn),
      List.getElem?_eq_none (by simpa using hn)]

theorem value?_run (tasks : List (Run α)) (completion : List Nat)
    (h : ∀ i < tasks.length, i ∈ completion) :
    (run tasks completion).value? = tasks.mapM Run.value? := by
  show (fill tasks completion).mapM id = _
  rw [fill_eq tasks completion h, List.mapM_map]
  rfl

end JarIndex.Schedule
