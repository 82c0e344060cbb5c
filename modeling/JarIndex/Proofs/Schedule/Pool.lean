import JarIndex.Proofs.Schedule
import Mathlib.Data.List.Perm.Basic
import Mathlib.Logic.Relation

/-!
# Tasks that end in any order

A pool holds the numbers of the tasks that have not ended and one slot for each
task. Any task that waits may be the next to end: it leaves its value in its slot,
or nothing if it is aborted. The values are collected when no task waits; once a
task was aborted the others may be given up at any time.
-/

set_option autoImplicit false

namespace JarIndex.Schedule

structure Pool (α : Type) where
  waiting : List Nat
  slots : List (Option α)

namespace Pool

variable {α : Type}

def start (tasks : List (Run α)) : Pool α :=
  ⟨List.range tasks.length, List.replicate tasks.length none⟩

def finish (tasks : List (Run α)) (p : Pool α) (i : Nat) : Pool α :=
  ⟨p.waiting.erase i, p.slots.set i (tasks[i]?.bind Run.value?)⟩

inductive Step (tasks : List (Run α)) (p : Pool α) : Pool α → Prop
  | ends (i : Nat) (hi : i ∈ p.waiting) : Step tasks p (p.finish tasks i)

def Reaches (tasks : List (Run α)) : Pool α → Pool α → Prop := Relation.ReflTransGen (Step tasks)

def Aborted (p : Pool α) : Prop := ∃ i, i ∉ p.waiting ∧ p.slots[i]? = some none

inductive Gives (p : Pool α) : Option (List α) → Prop
  | collected (h : p.waiting = []) : Gives p (p.slots.mapM id)
  | givenUp (h : p.Aborted) : Gives p none

/-- A pool in which these tasks have ended, in this order. -/
structure After (tasks : List (Run α)) (completion : List Nat) (p : Pool α) : Prop where
  perm : (completion ++ p.waiting).Perm (List.range tasks.length)
  slots : p.slots = fill tasks completion

variable {tasks : List (Run α)} {completion : List Nat} {p q : Pool α} {r : Option (List α)}

theorem after_start (tasks : List (Run α)) : After tasks [] (start tasks) := ⟨.refl _, rfl⟩

theorem After.finish (h : After tasks completion p) {i : Nat} (hi : i ∈ p.waiting) :
    After tasks (completion ++ [i]) (p.finish tasks i) where
  perm := by
    have hw : (i :: p.waiting.erase i).Perm p.waiting := (List.perm_cons_erase hi).symm
    have hp := (hw.append_left completion).trans h.perm
    rwa [List.append_cons] at hp
  slots := by
    unfold Pool.finish fill
    rw [List.foldl_append, h.slots]
    rfl

/-- However the tasks are interleaved, the slots are filled in the order in which they end. -/
theorem Reaches.after (h : Reaches tasks (start tasks) p) :
    ∃ completion, After tasks completion p := by
  induction h with
  | refl => exact ⟨[], after_start tasks⟩
  | tail _ step ih =>
    obtain ⟨completion, ha⟩ := ih
    cases step with
    | ends i hi => exact ⟨completion ++ [i], ha.finish hi⟩

theorem Step.waiting_lt (h : Step tasks p q) : q.waiting.length < p.waiting.length := by
  cases h with
  | ends i hi =>
    have hpos := List.length_pos_of_mem hi
    show (p.waiting.erase i).length < p.waiting.length
    rw [List.length_erase_of_mem hi]
    omega

theorem wellFounded_step (tasks : List (Run α)) : WellFounded fun q p => Step tasks p q :=
  Subrelation.wf Step.waiting_lt (measure fun p : Pool α => p.waiting.length).wf

theorem step_or_gives (tasks : List (Run α)) (p : Pool α) :
    (∃ q, Step tasks p q) ∨ ∃ r, p.Gives r := by
  cases hw : p.waiting with
  | nil => exact Or.inr ⟨_, .collected hw⟩
  | cons i rest => exact Or.inl ⟨_, .ends i (by rw [hw]; exact List.mem_cons_self)⟩

theorem reaches_completion (h : completion.Perm p.waiting) : Reaches tasks p
    ⟨[], completion.foldl (fun slots i => slots.set i (tasks[i]?.bind Run.value?)) p.slots⟩ := by
  induction completion generalizing p with
  | nil =>
    obtain ⟨waiting, slots⟩ := p
    obtain rfl : waiting = [] := List.nil_perm.mp h
    exact .refl
  | cons i rest ih =>
    obtain ⟨hi, hr⟩ := List.cons_perm_iff_perm_erase.mp h
    exact .head (.ends i hi) (ih (p := p.finish tasks i) hr)

/-- The pools in which no task waits are those of the completions of all tasks. -/
theorem reaches_ended_iff : (Reaches tasks (start tasks) p ∧ p.waiting = []) ↔
    ∃ completion, completion.Perm (List.range tasks.length) ∧ p = ⟨[], fill tasks completion⟩ := by
  constructor
  · rintro ⟨hr, hw⟩
    obtain ⟨completion, ha⟩ := hr.after
    have hp := ha.perm
    rw [hw, List.append_nil] at hp
    refine ⟨completion, hp, ?_⟩
    rw [← hw, ← ha.slots]
  · rintro ⟨completion, hp, rfl⟩
    exact ⟨reaches_completion hp, rfl⟩

theorem mapM_value?_none {i : Nat} (hi : i < tasks.length) (h : tasks[i].value? = none) :
    tasks.mapM Run.value? = none := by
  rw [← Option.not_isSome_iff_eq_none]
  intro hs
  have ht := (Run.isSome_mapM_value? id tasks).mp hs tasks[i] (List.getElem_mem hi)
  rw [id, h] at ht
  cases ht

theorem After.gives (h : After tasks completion p) (hg : p.Gives r) :
    r = tasks.mapM Run.value? := by
  have hmem : ∀ i < tasks.length, i ∉ p.waiting → i ∈ completion := by
    intro i hi hw
    have hc := h.perm.mem_iff.mpr (List.mem_range.mpr hi)
    exact (List.mem_append.mp hc).resolve_right hw
  cases hg with
  | collected hw =>
    rw [h.slots]
    refine value?_run tasks completion fun i hi => hmem i hi ?_
    rw [hw]
    exact List.not_mem_nil
  | givenUp ha =>
    obtain ⟨i, hw, hs⟩ := ha
    rw [h.slots] at hs
    have hi : i < tasks.length := by
      rw [← length_fill tasks completion]
      exact (List.getElem?_eq_some_iff.mp hs).1
    rw [getElem?_fill tasks completion i hi, if_pos (hmem i hi hw), Option.some_inj] at hs
    exact (mapM_value?_none hi hs).symm

/-- Every interleaving leaves the values of the tasks in their order, and nothing if one of them
has none. -/
theorem gives_iff : (∃ p, Reaches tasks (start tasks) p ∧ p.Gives r) ↔
    r = tasks.mapM Run.value? := by
  constructor
  · rintro ⟨p, hr, hg⟩
    obtain ⟨completion, ha⟩ := hr.after
    exact ha.gives hg
  · intro hr
    obtain ⟨hreach, hw⟩ := reaches_ended_iff.mpr ⟨_, List.Perm.refl _, rfl⟩
    refine ⟨_, hreach, ?_⟩
    obtain ⟨completion, ha⟩ := hreach.after
    rw [hr, ← ha.gives (.collected hw)]
    exact .collected hw

end Pool

end JarIndex.Schedule
