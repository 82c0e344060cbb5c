/-!
# Events and the runs that log them

A run logs events in order and ends with a value, or is aborted and ends with
none; what it logged before stays logged.
-/

set_option autoImplicit false

namespace JarIndex

inductive Level where
  | error
  | warn
  | info
  | debug
  | trace
  deriving DecidableEq, Repr

inductive Origin where
  | archive
  | extract
  deriving DecidableEq, Repr

structure Event where
  level : Level
  origin : Origin
  message : String
  deriving DecidableEq, Repr

structure Run (α : Type) where
  events : List Event
  value? : Option α
  deriving DecidableEq, Repr

namespace Run

def abort {α : Type} : Run α := ⟨[], none⟩

def log (e : Event) : Run Unit := ⟨[e], some ()⟩

def andThen {α β : Type} (r : Run α) (f : α → Run β) : Run β :=
  match r.value? with
  | none => ⟨r.events, none⟩
  | some a =>
    let next := f a
    ⟨r.events ++ next.events, next.value?⟩

instance : Monad Run where
  pure a := ⟨[], some a⟩
  bind := andThen

end Run

end JarIndex
