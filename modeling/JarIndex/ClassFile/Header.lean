import JarIndex.ClassFile.ConstantPool

/-!
# The header of a class file

What is kept of a class file is its binary name and the source file it
declares. Members and all other attributes are passed over by their lengths.
A later `SourceFile` attribute overrides an earlier one, and the class's own
name is looked up last.
-/

set_option autoImplicit false

namespace JarIndex.ClassFile

structure Header where
  className : String
  sourceFile : Option String
  deriving DecidableEq, Repr

/-- The part of a dotted name before its last dot, empty for a name without one. -/
def packageOf (name : String) : String :=
  String.ofList ((name.toList.reverse.dropWhile (· ≠ '.')).drop 1).reverse

def Header.package (h : Header) : String := packageOf h.className

def magic : Nat := 0xCAFEBABE

def sourceFileName : Bytes := utf8Bytes "SourceFile"

def dotted (name : String) : String :=
  String.ofList (name.toList.map fun c => if c = '/' then '.' else c)

/-- Every slash becomes a dot, and every other character stays where it is. -/
theorem eq_dotted_iff {name dots : String} : dots = dotted name ↔
    dots.toList.length = name.toList.length ∧ ∀ (i : Nat) c, name.toList[i]? = some c →
      (c = '/' → dots.toList[i]? = some '.') ∧ (c ≠ '/' → dots.toList[i]? = some c) := by
  unfold dotted
  constructor
  · rintro rfl
    refine ⟨by simp, fun i c hc => ⟨fun hs => ?_, fun hs => ?_⟩⟩ <;> simp [hc, hs]
  · rintro ⟨hl, hat⟩
    have hlist : dots.toList = name.toList.map fun c => if c = '/' then '.' else c := by
      apply List.ext_getElem?
      intro i
      rw [List.getElem?_map]
      cases hc : name.toList[i]? with
      | none => exact List.getElem?_eq_none (hl ▸ List.getElem?_eq_none_iff.mp hc)
      | some c =>
        by_cases hs : c = '/'
        · rw [(hat i c hc).1 hs, Option.map_some, if_pos hs]
        · rw [(hat i c hc).2 hs, Option.map_some, if_neg hs]
    rw [← hlist, String.ofList_toList]

namespace Reader

def expectMagic : Reader Unit := do
  let found ← u4
  if found ≠ magic then fail (.wrongMagic found)

def skipAttribute : Reader Unit := do
  skip 2
  let length ← u4
  skip length

def skipMember : Reader Unit := do
  skip 2
  skip 2
  skip 2
  let count ← u2
  times skipAttribute count

def classAttribute (pool : ConstantPool) (sourceFile : Option String) :
    Reader (Option String) := do
  let name ← u2
  let length ← u4
  let bytes ← pool.textBytes name
  if bytes ≠ sourceFileName then
    skip length
    return sourceFile
  else if length ≠ 2 then
    fail (.malformedSourceFile length)
  else
    let value ← u2
    return some (← pool.text value)

def classAttributes (pool : ConstantPool) : Nat → Option String → Reader (Option String)
  | 0, sourceFile => pure sourceFile
  | n + 1, sourceFile => do
    let sourceFile ← classAttribute pool sourceFile
    classAttributes pool n sourceFile

def header : Reader Header := do
  expectMagic
  skip 2
  skip 2
  let pool ← ConstantPool.read
  skip 2
  let thisClass ← u2
  skip 2
  let interfaces ← u2
  skip (2 * interfaces)
  let fields ← u2
  times skipMember fields
  let methods ← u2
  times skipMember methods
  let attributes ← u2
  let sourceFile ← classAttributes pool attributes none
  let name ← pool.className thisClass
  return ⟨dotted name, sourceFile⟩

end Reader

def parse (bs : Bytes) : Except DecodeError Header := Reader.header.parse bs

end JarIndex.ClassFile
