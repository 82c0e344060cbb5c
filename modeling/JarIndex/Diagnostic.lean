import JarIndex.Archive.Content
import JarIndex.ClassFile.Header
import JarIndex.FileTree.Basic

/-!
# What a scan could not read

A diagnostic concerns an archive as a whole or one entry of it; the rest of an
archive with a bad entry still counts.
-/

set_option autoImplicit false

namespace JarIndex

inductive Diagnostic where
  | unopened (path : String) (cause : FileFault)
  | notAnArchive (path : String) (cause : Archive.Fault)
  | unreadEntry (path entry : String) (cause : Archive.Fault)
  | undecoded (path entry : String) (cause : ClassFile.DecodeError)
  deriving DecidableEq, Repr

inductive Scope where
  | archive
  | entry
  deriving DecidableEq, Repr

namespace Diagnostic

def scope : Diagnostic → Scope
  | .unopened _ _ | .notAnArchive _ _ => .archive
  | .unreadEntry _ _ _ | .undecoded _ _ _ => .entry

def archive : Diagnostic → String
  | .unopened path _ | .notAnArchive path _ | .unreadEntry path _ _ | .undecoded path _ _ => path

def entry : Diagnostic → Option String
  | .unopened _ _ | .notAnArchive _ _ => none
  | .unreadEntry _ entry _ | .undecoded _ entry _ => some entry

def message : Diagnostic → String
  | .unopened path cause => "failed to open archive " ++ path ++ ": " ++ cause.message
  | .notAnArchive path cause => "failed to read archive " ++ path ++ ": " ++ cause.message
  | .unreadEntry path entry cause =>
    "failed to read entry " ++ entry ++ " in " ++ path ++ ": " ++ cause.message
  | .undecoded path entry cause =>
    "failed to decode class " ++ entry ++ " in " ++ path ++ ": " ++ cause.message

end Diagnostic

end JarIndex
