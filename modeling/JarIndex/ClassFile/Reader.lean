import JarIndex.Bytes
import JarIndex.ClassFile.DecodeError

/-!
# Reading a class file from front to back

The cursor knows how much has been read, because a field that runs past the
end is reported at the place where it starts.
-/

set_option autoImplicit false

namespace JarIndex.ClassFile

structure Cursor where
  offset : Nat
  rest : Bytes
  deriving DecidableEq, Repr

abbrev Reader := StateT Cursor (Except DecodeError)

namespace Reader

def bytes (n : Nat) : Reader Bytes := fun c =>
  match Bytes.split? n c.rest with
  | some (front, rest) => .ok (front, ⟨c.offset + n, rest⟩)
  | none => .error (.unexpectedEnd c.offset)

def skip (n : Nat) : Reader Unit := do
  let _ ← bytes n

def number (n : Nat) : Reader Nat := do
  return Bytes.bigEndian (← bytes n)

def u1 : Reader Nat := number 1

def u2 : Reader Nat := number 2

def u4 : Reader Nat := number 4

def fail {α : Type} (e : DecodeError) : Reader α := fun _ => .error e

def times (r : Reader Unit) : Nat → Reader Unit
  | 0 => pure ()
  | n + 1 => do
    r
    times r n

def parse {α : Type} (r : Reader α) (bs : Bytes) : Except DecodeError α :=
  (r ⟨0, bs⟩).map Prod.fst

end Reader

end JarIndex.ClassFile
