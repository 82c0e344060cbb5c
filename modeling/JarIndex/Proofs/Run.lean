import JarIndex.Log

/-!
# Values and events of runs

The value of a run depends on the values of its parts alone, not on the events.
The events of a run whose parts all have values are those of its parts, in order.
-/

set_option autoImplicit false

namespace JarIndex.Run

variable {α β : Type}

@[simp] theorem value?_pure (a : α) : (pure a : Run α).value? = some a := rfl

@[simp] theorem value?_abort : (abort : Run α).value? = none := rfl

@[simp] theorem value?_log (e : Event) : (log e).value? = some () := rfl

@[simp] theorem value?_bind (r : Run α) (f : α → Run β) :
    (r >>= f).value? = r.value?.bind fun a => (f a).value? := by
  show (r.andThen f).value? = _
  unfold andThen
  cases r.value? <;> rfl

theorem value?_forM {f : α → Run Unit} (h : ∀ a, (f a).value? = some ()) (as : List α) :
    (as.forM f).value? = some () := by
  induction as with
  | nil => rfl
  | cons a as ih =>
    show (f a >>= fun _ => as.forM f).value? = _
    rw [value?_bind, h a]
    exact ih

theorem events_bind {r : Run α} {a : α} (h : r.value? = some a) (f : α → Run β) :
    (r >>= f).events = r.events ++ (f a).events := by
  show (r.andThen f).events = _
  unfold andThen
  rw [h]

theorem events_forM_log (event : α → Event) (as : List α) :
    (as.forM fun a => log (event a)).events = as.map event := by
  induction as with
  | nil => rfl
  | cons a as ih =>
    show (log (event a) >>= fun _ => as.forM fun a => log (event a)).events = _
    rw [events_bind (value?_log _), ih]
    rfl

theorem isSome_mapM_value? (f : α → Run β) (as : List α) :
    (as.mapM fun a => (f a).value?).isSome = true ↔ ∀ a ∈ as, (f a).value?.isSome = true := by
  induction as with
  | nil => simp
  | cons a as ih =>
    rw [List.mapM_cons, List.forall_mem_cons, ← ih]
    cases (f a).value? with
    | none => simp
    | some b => cases as.mapM fun a => (f a).value? <;> simp

end JarIndex.Run
