import JarIndex.Scan
import JarIndex.Text.Blank

/-!
# Settings of an extraction

An option of the command line wins over the environment, and the environment over
the default.
-/

set_option autoImplicit false

namespace JarIndex

structure Settings where
  order : EntryOrder
  parallel : Bool
  deriving DecidableEq, Repr

abbrev Environment := List (String × String)

inductive SettingsError where
  | unknownOrder (given : String)
  deriving DecidableEq, Repr

namespace Settings

def orderVariable : String := "JVM_NAMES_ORDER"

def parallelVariable : String := "JVM_NAMES_PARALLEL"

def normal (raw : String) : String := Text.lowerAscii (Text.trim raw)

def orderOfText (raw : String) : Except SettingsError EntryOrder :=
  let given := normal raw
  if given = "native" then .ok .native
  else if given = "canonical" then .ok .canonical
  else .error (.unknownOrder given)

def isYes (raw : String) : Bool := normal raw ∈ ["1", "true", "yes"]

def resolve (env : Environment) (order : Option EntryOrder) (parallel : Bool) :
    Except SettingsError Settings := do
  let order ← match order, env.lookup orderVariable with
    | some order, _ => .ok order
    | none, some raw => orderOfText raw
    | none, none => .ok .canonical
  return ⟨order, parallel || ((env.lookup parallelVariable).map isYes).getD false⟩

end Settings

/-- The message and its causes, outermost first. -/
def SettingsError.messages : SettingsError → List String
  | .unknownOrder given =>
    ["Invalid " ++ Settings.orderVariable,
      "unknown entry order '" ++ given ++ "' (expected native or canonical)"]

end JarIndex
