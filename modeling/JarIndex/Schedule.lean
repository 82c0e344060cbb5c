import JarIndex.Log

/-!
# Runs side by side

Each run is a task that stores its value in the slot of its own number when it
completes. Tasks may complete in any order, which shows in the order of the
events; the values are read from the slots.
-/

set_option autoImplicit false

namespace JarIndex.Schedule

/-- The slots after the tasks numbered in `completion` are done. -/
def fill {α : Type} (tasks : List (Run α)) (completion : List Nat) : List (Option α) :=
  completion.foldl (fun slots i => slots.set i (tasks[i]?.bind Run.value?))
    (List.replicate tasks.length none)

def events {α : Type} (tasks : List (Run α)) (completion : List Nat) : List Event :=
  completion.flatMap fun i => ((tasks[i]?.map Run.events).getD [])

/-- All values in the order of the tasks; a task that aborts leaves none. -/
def run {α : Type} (tasks : List (Run α)) (completion : List Nat) : Run (List α) :=
  ⟨events tasks completion, (fill tasks completion).mapM id⟩

end JarIndex.Schedule
