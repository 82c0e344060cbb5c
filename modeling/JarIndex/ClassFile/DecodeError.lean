/-!
# Why a class file cannot be read
-/

set_option autoImplicit false

namespace JarIndex.ClassFile

inductive DecodeError where
  | unexpectedEnd (offset : Nat)
  | wrongMagic (found : Nat)
  | unknownTag (tag : Nat) (slot : Nat)
  | wrongSlot (slot : Nat)
  | malformedText (slot : Nat)
  | malformedSourceFile (length : Nat)
  deriving DecidableEq, Repr

def hexDigits (width n : Nat) : List Char :=
  (List.range width).reverse.map fun i => Nat.digitChar (n >>> (4 * i) % 16)

def DecodeError.message : DecodeError → String
  | .unexpectedEnd offset => "unexpected end of class data at offset " ++ toString offset
  | .wrongMagic found => "invalid class file magic header 0x" ++ String.ofList (hexDigits 8 found)
  | .unknownTag tag slot =>
    "unsupported constant pool tag " ++ toString tag ++ " at index " ++ toString slot
  | .wrongSlot slot => "invalid constant pool index " ++ toString slot
  | .malformedText slot => "invalid modified UTF-8 in constant pool entry " ++ toString slot
  | .malformedSourceFile length =>
    "malformed SourceFile attribute: length " ++ toString length

end JarIndex.ClassFile
