import JarIndex.Discovery
import JarIndex.Settings

/-!
# Why a command fails

Each failure has a message and the messages of its causes, outermost first.
-/

set_option autoImplicit false

namespace JarIndex

inductive Failure where
  | settings (e : SettingsError)
  | pathList (path : String) (f : FileFault)
  | discovery (e : Discovery.NotADirectory)
  | outputDirectory (path : String) (f : FileFault)
  | output (path : String) (f : FileFault)
  | incomplete (diagnostics : Nat)
  | notFound (path : String)
  | classRead (path : String) (f : FileFault)
  | classDecode (path : String) (e : ClassFile.DecodeError)
  deriving DecidableEq, Repr

namespace Failure

def messages : Failure → List String
  | .settings e => e.messages
  | .pathList path f => ["Failed to read archive list: " ++ path, f.message]
  | .discovery e => ["Failed to discover jars under " ++ e.path, e.message]
  | .outputDirectory path f => ["Failed to create directory: " ++ path, f.message]
  | .output path f => ["Failed to write output: " ++ path, f.message]
  | .incomplete n => [toString n ++ " archive(s) or entries could not be read"]
  | .notFound path => ["File not found: " ++ path]
  | .classRead path f => ["Failed to read " ++ path, f.message]
  | .classDecode path e => ["Failed to decode " ++ path, e.message]

def indented (indent : String) (s : String) : String :=
  String.intercalate ("\n" ++ indent) ((s.toList.splitOn '\n').map String.ofList)

def causeLines : List String → List String
  | [] => []
  | [cause] => ["", "Caused by:", "    " ++ indented "    " cause]
  | causes => "" :: "Caused by:" ::
    causes.mapIdx fun i cause => "    " ++ toString i ++ ": " ++ indented "       " cause

def report (f : Failure) : String :=
  match f.messages with
  | [] => ""
  | message :: causes =>
    String.join ((("Error: " ++ message) :: causeLines causes).map (· ++ "\n"))

end Failure

end JarIndex
