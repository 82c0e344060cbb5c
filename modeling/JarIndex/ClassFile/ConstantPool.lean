import JarIndex.ClassFile.Reader
import JarIndex.Text.Modified

/-!
# The constant pool

Slots are numbered from one. Long and double constants fill two slots, of which
the second names nothing; constants are read for as long as the next free slot
is below the declared count, so the last of them may overshoot it by one.
-/

set_option autoImplicit false

namespace JarIndex.ClassFile

inductive Slot where
  | text (bytes : Bytes)
  | classNamed (name : Nat)
  | wide
  | other
  | unusable
  deriving DecidableEq, Repr

abbrev ConstantPool := Array Slot

namespace ConstantPool

def payloadSize : Nat → Option Nat
  | 3 | 4 | 9 | 10 | 11 | 12 | 17 | 18 => some 4
  | 15 => some 3
  | 8 | 16 | 19 | 20 => some 2
  | _ => none

def constant (slot : Nat) : Reader Slot := do
  let tag ← Reader.u1
  if tag = 1 then
    let length ← Reader.u2
    return .text (← Reader.bytes length)
  else if tag = 7 then
    return .classNamed (← Reader.u2)
  else if tag = 5 ∨ tag = 6 then
    Reader.skip 8
    return .wide
  else match payloadSize tag with
    | some n => do
      Reader.skip n
      return .other
    | none => Reader.fail (.unknownTag tag slot)

def add (pool : ConstantPool) (s : Slot) : ConstantPool :=
  if s = .wide then (pool.push s).push .unusable else pool.push s

theorem size_lt_size_add (pool : ConstantPool) (s : Slot) : pool.size < (pool.add s).size := by
  unfold add
  split <;> simp only [Array.size_push] <;> omega

/-- Reads constants until the slots below `count` are filled. -/
def fill (count : Nat) (pool : ConstantPool) : Reader ConstantPool := do
  if pool.size < count then
    let s ← constant pool.size
    fill count (pool.add s)
  else
    return pool
termination_by count - pool.size
decreasing_by
  have := size_lt_size_add pool s
  omega

def read : Reader ConstantPool := do
  let count ← Reader.u2
  fill count #[.unusable]

def textBytes (pool : ConstantPool) (slot : Nat) : Except DecodeError Bytes :=
  match pool[slot]? with
  | some (.text bs) => .ok bs
  | _ => .error (.wrongSlot slot)

def text (pool : ConstantPool) (slot : Nat) : Except DecodeError String := do
  let bs ← pool.textBytes slot
  match ModifiedUtf8.decode bs with
  | some s => return s
  | none => throw (.malformedText slot)

def className (pool : ConstantPool) (slot : Nat) : Except DecodeError String :=
  match pool[slot]? with
  | some (.classNamed name) => pool.text name
  | _ => .error (.wrongSlot slot)

end ConstantPool

end JarIndex.ClassFile
