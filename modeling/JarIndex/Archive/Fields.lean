import JarIndex.Bytes
import JarIndex.Archive.Fault

/-!
# Little-endian fields of an archive
-/

set_option autoImplicit false

namespace JarIndex.Archive

abbrev Fields := StateT Bytes (Except Fault)

namespace Fields

def bytes (n : Nat) : Fields Bytes := fun bs =>
  match Bytes.split? n bs with
  | some p => .ok p
  | none => .error .endsEarly

def number (n : Nat) : Fields Nat := do
  return Bytes.littleEndian (← bytes n)

def u16 : Fields Nat := number 2

def u32 : Fields Nat := number 4

def u64 : Fields Nat := number 8

def skip (n : Nat) : Fields Unit := do
  let _ ← bytes n

def fail {α : Type} (f : Fault) : Fields α := fun _ => .error f

/-- Reads at a position; a position beyond the end is one where nothing is left. -/
def readAt {α : Type} (r : Fields α) (position : Nat) (bs : Bytes) : Except Fault α :=
  (r (bs.drop position)).map Prod.fst

end Fields

end JarIndex.Archive
