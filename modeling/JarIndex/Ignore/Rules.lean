import JarIndex.Ignore.Glob
import JarIndex.Path
import JarIndex.Text.Blank
import JarIndex.Text.Lines

/-!
# Ignore rules

A rule is a line with a glob; an exclamation mark turns it into an exception, and
a slash at its end restricts it to directories. A glob without another slash
applies to names at any depth. Of the rules of one file the last that applies
decides. Lines that are not complete globs are dropped, and so is everything
after a line that is not text.
-/

set_option autoImplicit false

namespace JarIndex.Ignore

structure Rule where
  isException : Bool
  onlyDirectories : Bool
  glob : Pattern
  deriving DecidableEq, Repr

namespace Rule

/-- A line without the blanks at its end, unless the last of them is escaped. -/
def trimmedLine (line : List Char) : List Char :=
  if ['\\', ' '].isSuffixOf line then line else Text.trimEnd line

structure Anchored where
  isException : Bool
  isAnchored : Bool
  glob : List Char

def unsigned : List Char → Anchored
  | '\\' :: '!' :: cs => ⟨false, false, '!' :: cs⟩
  | '\\' :: '#' :: cs => ⟨false, false, '#' :: cs⟩
  | '!' :: '/' :: cs => ⟨true, true, cs⟩
  | '!' :: cs => ⟨true, false, cs⟩
  | '/' :: cs => ⟨false, true, cs⟩
  | cs => ⟨false, false, cs⟩

def unslashed (cs : List Char) : Bool × List Char :=
  if cs.getLast? = some '/' then (true, Text.dropLastIf '\\' cs.dropLast) else (false, cs)

def anyDepth (cs : List Char) : List Char :=
  if ['*', '*', '/'].isPrefixOf cs || cs = ['*', '*'] then cs else '*' :: '*' :: '/' :: cs

def insideOnly (cs : List Char) : List Char :=
  if ['/', '*', '*'].isSuffixOf cs then cs ++ ['/', '*'] else cs

def ofLine? (line : List Char) : Option Rule :=
  if line.head? = some '#' then none
  else
    let line := trimmedLine line
    if line = [] then none
    else
      let a := unsigned line
      let (onlyDirectories, cs) := unslashed a.glob
      let cs := if a.isAnchored || cs.contains '/' then cs else anyDepth cs
      (glob? (String.ofList (insideOnly cs))).map fun p => ⟨a.isException, onlyDirectories, p⟩

end Rule

inductive Verdict where
  | ignored
  | kept
  deriving DecidableEq, Repr

structure Rules where
  directory : String
  rules : List Rule
  deriving DecidableEq, Repr

namespace Rules

def withoutMark (cs : List Char) : List Char := cs.dropWhile (· = '\ufeff')

/-- The lines up to the first that is not text; marks at the start of the first are no part
of it. -/
def textLines (content : Bytes) : List (List Char) :=
  let texts := (Text.linesFrom 0x0A 0x0D [] content).map Bytes.utf8?
  match (texts.takeWhile Option.isSome).filterMap id with
  | [] => []
  | first :: rest => withoutMark first.toList :: rest.map String.toList

def ofContent (directory : String) (content : Bytes) : Rules :=
  ⟨directory, (textLines content).filterMap Rule.ofLine?⟩

def dropIf (front : String) (path : String) : String :=
  if front.toList.isPrefixOf path.toList then
    String.ofList (path.toList.drop front.length)
  else path

def undotted (path : String) : String := dropIf "./" path

def relative (directory path : String) : String :=
  let directory := undotted directory
  let path := undotted path
  if Path.parts directory = [.here] || !path.toList.contains '/' then path
  else if directory.toList.isPrefixOf path.toList then dropIf "/" (dropIf directory path)
  else path

def verdict (r : Rules) (path : String) (isDirectory : Bool) : Option Verdict :=
  let path := relative r.directory path
  let applies := fun rule : Rule =>
    (!rule.onlyDirectories || isDirectory) && rule.glob.isMatch (utf8Bytes path)
  (r.rules.reverse.find? applies).map fun rule => if rule.isException then .kept else .ignored

def firstVerdict (rs : List Rules) (path : String) (isDirectory : Bool) : Option Verdict :=
  rs.findSome? fun r => r.verdict path isDirectory

end Rules

end JarIndex.Ignore
